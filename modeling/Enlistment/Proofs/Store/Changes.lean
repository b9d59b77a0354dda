import Enlistment.Proofs.Store.Versions

/-!
# Changes of a store

A change touches the versions or the lock of one key, releases the locks of one owner, or
drops old versions. Whether a change is skipped because it is taken to have no effect cannot
be told afterwards, as long as the store is well formed, which every change keeps it.
-/

namespace Enlistment

namespace Store

open Snapshot (readable)

/-- A store whose tables ascend and whose versions are sorted. -/
structure WellFormed (s : Store) : Prop where
  data : s.data.Ascending
  locks : s.locks.Ascending
  sorted : ∀ key, Sorted (s.versions key)

/-- A store without rows is well formed. -/
theorem WellFormed.empty : WellFormed {} :=
  ⟨Table.Ascending.nil, Table.Ascending.nil, fun _ => List.Pairwise.nil⟩

section

variable {s : Store}

/-! ## Versions -/

/-- Executing a put adds a version to one key. -/
theorem versions_execute_put (s : Store) (k : Bytes) (version : EntryVersion)
    (value : Option Bytes) (key : Bytes) :
    (s.execute (.put k version value)).versions key =
      if k = key then putVersion version value (s.versions k) else s.versions key := by
  simp only [execute, versions, Table.get?_set]
  split <;> rfl

/-- A put adds a version to one key, also if it is skipped. -/
theorem WellFormed.versions_apply_put (h : s.WellFormed) (k : Bytes) (version : EntryVersion)
    (value : Option Bytes) (key : Bytes) :
    (s.apply (.put k version value)).versions key =
      if k = key then putVersion version value (s.versions k) else s.versions key := by
  unfold apply
  split
  · next hnoop =>
    have hlast : (s.versions k).getLast? = some ⟨version, value⟩ := eq_of_beq hnoop
    split
    · next hk =>
      rw [(h.sorted k).putVersion_last hlast, hk]
    · rfl
  · exact versions_execute_put s k version value key

/-- A lock leaves all versions alone. -/
@[simp]
theorem data_apply_lock (s : Store) (k : Bytes) (owner : LockVersion) :
    (s.apply (.lock k owner)).data = s.data := by
  unfold apply
  split <;> rfl

/-- Releasing locks leaves all versions alone. -/
@[simp]
theorem data_apply_unlock (s : Store) (owner : LockVersion) :
    (s.apply (.unlock owner)).data = s.data := by
  unfold apply
  split <;> rfl

/-- A lock leaves the versions of every key alone. -/
@[simp]
theorem versions_apply_lock (s : Store) (k : Bytes) (owner : LockVersion) (key : Bytes) :
    (s.apply (.lock k owner)).versions key = s.versions key := by
  rw [versions, data_apply_lock, versions]

/-- Releasing locks leaves the versions of every key alone. -/
@[simp]
theorem versions_apply_unlock (s : Store) (owner : LockVersion) (key : Bytes) :
    (s.apply (.unlock owner)).versions key = s.versions key := by
  rw [versions, data_apply_unlock, versions]

/-- A vacuum changes the versions of each key on its own. -/
theorem WellFormed.versions_execute_vacuum (h : s.WellFormed) (horizon : EntryVersion)
    (key : Bytes) : (s.execute (.vacuum horizon)).versions key =
      ((s.data.get? key).bind (vacuumVersions horizon)).getD [] := by
  simp only [execute, versions, h.data.get?_filterMapValues]

/-- A vacuum adds no version to any key. -/
theorem WellFormed.mem_versions_vacuum (h : s.WellFormed) {horizon : EntryVersion} {key : Bytes}
    {v : VersionedValue} (hv : v ∈ (s.apply (.vacuum horizon)).versions key) :
    v ∈ s.versions key := by
  unfold apply at hv
  split at hv
  · exact hv
  · rw [h.versions_execute_vacuum] at hv
    unfold versions
    cases hget : s.data.get? key with
    | none => simp [hget] at hv
    | some found =>
      rw [hget, Option.bind_some] at hv
      unfold vacuumVersions at hv
      split at hv
      · cases hv
      · exact (dropSuperseded_suffix horizon found).subset hv

/-! ## Locks -/

/-- A put leaves all locks alone. -/
@[simp]
theorem locks_apply_put (s : Store) (k : Bytes) (version : EntryVersion) (value : Option Bytes) :
    (s.apply (.put k version value)).locks = s.locks := by
  unfold apply
  split <;> rfl

/-- A vacuum leaves all locks alone. -/
@[simp]
theorem locks_apply_vacuum (s : Store) (horizon : EntryVersion) :
    (s.apply (.vacuum horizon)).locks = s.locks := by
  unfold apply
  split <;> rfl

/-- A put leaves the lock of every key alone. -/
@[simp]
theorem lockOwner_apply_put (s : Store) (k : Bytes) (version : EntryVersion)
    (value : Option Bytes) (key : Bytes) :
    (s.apply (.put k version value)).lockOwner key = s.lockOwner key := by
  rw [lockOwner, locks_apply_put, lockOwner]

/-- A vacuum leaves the lock of every key alone. -/
@[simp]
theorem lockOwner_apply_vacuum (s : Store) (horizon : EntryVersion) (key : Bytes) :
    (s.apply (.vacuum horizon)).lockOwner key = s.lockOwner key := by
  rw [lockOwner, locks_apply_vacuum, lockOwner]

/-- A lock gives one key its owner, also if it is skipped. -/
@[simp]
theorem lockOwner_apply_lock (s : Store) (k : Bytes) (owner : LockVersion) (key : Bytes) :
    (s.apply (.lock k owner)).lockOwner key = if k = key then some owner else s.lockOwner key := by
  unfold apply
  split
  · next hnoop =>
    have howner : s.lockOwner k = some owner := eq_of_beq hnoop
    split
    · next hk => rw [← hk, howner]
    · rfl
  · exact Table.get?_set s.locks k key owner

/-- Releasing the locks of an owner drops them, also if it is skipped. -/
theorem locks_apply_unlock (s : Store) (owner : LockVersion) :
    (s.apply (.unlock owner)).locks = s.locks.filter fun entry => entry.2 != owner := by
  unfold apply
  split
  · next hnoop =>
    refine (List.filter_eq_self.mpr fun entry hentry => ?_).symm
    have hnone : s.locks.any (fun entry => entry.2 == owner) = false := by
      simpa only [isNoop, Bool.not_eq_true'] using hnoop
    have hne : (entry.2 == owner) = false :=
      eq_false_of_ne_true (List.any_eq_false.mp hnone _ hentry)
    rw [bne, hne]
    rfl
  · rfl

/-- Releasing the locks of an owner leaves the others alone. -/
theorem WellFormed.lockOwner_apply_unlock (h : s.WellFormed) (owner : LockVersion)
    (key : Bytes) : (s.apply (.unlock owner)).lockOwner key =
      (s.lockOwner key).filter fun held => held != owner := by
  rw [lockOwner, locks_apply_unlock]
  exact h.locks.get?_filter (fun held => held != owner) key

/-! ## Well-formed stores -/

/-- Executing a change keeps a store well formed. -/
theorem WellFormed.execute (h : s.WellFormed) (op : StoreOp) : (s.execute op).WellFormed := by
  cases op with
  | put k version value =>
    refine ⟨h.data.set _ _, h.locks, fun key => ?_⟩
    rw [versions_execute_put]
    split
    · exact (h.sorted k).putVersion
    · exact h.sorted key
  | lock k owner => exact ⟨h.data, h.locks.set _ _, h.sorted⟩
  | unlock owner => exact ⟨h.data, List.Pairwise.filter _ h.locks, h.sorted⟩
  | vacuum horizon =>
    refine ⟨h.data.filterMapValues _, h.locks, fun key => ?_⟩
    rw [h.versions_execute_vacuum]
    have hsorted := h.sorted key
    unfold versions at hsorted
    cases hget : s.data.get? key with
    | none => exact List.Pairwise.nil
    | some found =>
      rw [hget] at hsorted
      cases hkept : vacuumVersions horizon found with
      | none => rw [Option.bind_some, hkept]; exact List.Pairwise.nil
      | some kept => rw [Option.bind_some, hkept]; exact hsorted.vacuumVersions hkept

/-- Executing changes one after the other keeps a store well formed. -/
theorem WellFormed.foldl_execute (h : s.WellFormed) (ops : List StoreOp) :
    (ops.foldl Store.execute s).WellFormed := by
  induction ops generalizing s with
  | nil => exact h
  | cons op rest ih => exact ih (h.execute op)

/-- Every change keeps a store well formed, also if it is skipped. -/
theorem WellFormed.apply (h : s.WellFormed) (op : StoreOp) : (s.apply op).WellFormed := by
  unfold Store.apply
  split
  · exact h
  · exact h.execute op

/-- Changes made one after the other keep a store well formed. -/
theorem WellFormed.foldl_apply (h : s.WellFormed) (ops : List StoreOp) :
    (ops.foldl Store.apply s).WellFormed := by
  induction ops generalizing s with
  | nil => exact h
  | cons op rest ih => exact ih (h.apply op)

/-! ## Keys without versions -/

/-- A store that has no key without versions. -/
def Occupied (s : Store) : Prop := ∀ entry ∈ s.data, entry.2 ≠ []

/-- A store without rows has no key without versions. -/
theorem Occupied.empty : Occupied {} := List.forall_mem_nil _

/-- Executing a change leaves no key without versions behind. -/
theorem Occupied.execute (h : s.Occupied) (op : StoreOp) : (s.execute op).Occupied := by
  cases op with
  | put k version value =>
    intro entry hentry
    rcases Table.mem_set hentry with rfl | hold
    · exact putVersion_ne_nil version value _
    · exact h entry hold
  | lock k owner => exact h
  | unlock owner => exact h
  | vacuum horizon =>
    intro entry hentry
    obtain ⟨⟨k, found⟩, hfound, hsome⟩ := List.mem_filterMap.mp hentry
    obtain ⟨kept, hkept, rfl⟩ := Option.map_eq_some_iff.mp hsome
    exact vacuumVersions_ne_nil (h _ hfound) hkept

/-- Executing changes one after the other leaves no key without versions behind. -/
theorem Occupied.foldl_execute (h : s.Occupied) (ops : List StoreOp) :
    (ops.foldl Store.execute s).Occupied := by
  induction ops generalizing s with
  | nil => exact h
  | cons op rest ih => exact ih (h.execute op)

/-- No change leaves a key without versions behind. -/
theorem Occupied.apply (h : s.Occupied) (op : StoreOp) : (s.apply op).Occupied := by
  unfold Store.apply
  split
  · exact h
  · exact h.execute op

/-- Changes made one after the other leave no key without versions behind. -/
theorem Occupied.foldl_apply (h : s.Occupied) (ops : List StoreOp) :
    (ops.foldl Store.apply s).Occupied := by
  induction ops generalizing s with
  | nil => exact h
  | cons op rest ih => exact ih (h.apply op)

/-- In a store that has no key without versions the versions of a key tell what the key finds. -/
theorem Occupied.get?_data (h : s.Occupied) (hs : s.WellFormed) (key : Bytes) :
    s.data.get? key = if s.versions key = [] then none else some (s.versions key) := by
  unfold versions
  cases hget : s.data.get? key with
  | none => rfl
  | some found =>
    have hne : found ≠ [] := h _ (hs.data.get?_eq_some_iff.mp hget)
    rw [Option.getD_some, if_neg hne]

/-- Well-formed stores that have no keys without versions are equal if they have the same versions
and the same lock for every key. -/
theorem WellFormed.ext {t : Store} (hs : s.WellFormed) (ht : t.WellFormed) (hs' : s.Occupied)
    (ht' : t.Occupied) (hversions : ∀ key, s.versions key = t.versions key)
    (howner : ∀ key, s.lockOwner key = t.lockOwner key) : s = t := by
  have hdata : s.data = t.data := hs.data.ext ht.data fun key => by
    rw [hs'.get?_data hs, ht'.get?_data ht, hversions]
  have hlocks : s.locks = t.locks := hs.locks.ext ht.locks howner
  cases s
  cases t
  obtain rfl := hdata
  obtain rfl := hlocks
  rfl

/-! ## What is read -/

/-- What is read of a key depends on its versions alone. -/
theorem visible_congr {t : Store} {key : Bytes} (h : t.versions key = s.versions key)
    (snapshot : Option Snapshot) : t.visible key snapshot = s.visible key snapshot := by
  rw [visible, visible, h]

/-- A put that a reader cannot see makes no difference to it. -/
theorem WellFormed.visible_apply_put_of_not (h : s.WellFormed) {snapshot : Option Snapshot}
    {version : EntryVersion} (hp : readable snapshot version = false) (k : Bytes)
    (value : Option Bytes) (key : Bytes) :
    (s.apply (.put k version value)).visible key snapshot = s.visible key snapshot := by
  simp only [visible, visibleVersion_eq, h.versions_apply_put]
  split
  · next hk => rw [filter_putVersion_of_not hp, hk]
  · rfl

/-- A put above all versions of its key that a reader can see is what it reads. -/
theorem WellFormed.visible_apply_put (h : s.WellFormed) {snapshot : Option Snapshot}
    {version : EntryVersion} (hp : readable snapshot version = true) {k : Bytes}
    (htop : ∀ v ∈ s.versions k, readable snapshot v.version = true → ¬ version < v.version)
    (value : Option Bytes) (key : Bytes) :
    (s.apply (.put k version value)).visible key snapshot =
      if k = key then value else s.visible key snapshot := by
  simp only [visible, visibleVersion_eq, h.versions_apply_put]
  split
  · rw [(h.sorted k).getLast?_filter_putVersion hp htop]
    rfl
  · rfl

end

end Store

end Enlistment
