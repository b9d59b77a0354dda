import Enlistment.Proofs.Store.Changes

/-!
# Stores and their histories

A store that grows by puts and locks alone is told by its history: the versions of a key are
those that were put on it, in ascending order, each with the value put last. The order of the
puts matters only where two of them put the same version of the same key, and a reader has the
value of the greatest version put that it can see.
-/

namespace Enlistment

/-- Whether a change puts a version. -/
def StoreOp.isPut : StoreOp → Bool
  | .put .. => true
  | _ => false

namespace Store

open Snapshot (readable)

/-- The values that changes put at a version of a key, the last one last. -/
def putsAt (key : Bytes) (version : EntryVersion) (ops : List StoreOp) : List (Option Bytes) :=
  ops.filterMap fun
    | .put k v value => if k = key ∧ v = version then some value else none
    | _ => none

/-- Changes that drop no versions. -/
def Growing (ops : List StoreOp) : Prop := ∀ op ∈ ops, ∀ horizon, op ≠ .vacuum horizon

/-- The changes of `ops` in another order: puts of one version of one key keep their order, and
so do the changes that are no puts. -/
structure Reordered (ops ops' : List StoreOp) : Prop where
  puts : ∀ key version, putsAt key version ops' = putsAt key version ops
  others : (ops'.filter fun op => !op.isPut) = ops.filter fun op => !op.isPut

/-- The version is the greatest of those that have a property. -/
def Newest (p : EntryVersion → Prop) (version : EntryVersion) : Prop :=
  p version ∧ ∀ v, p v → v = version ∨ v < version

/-- A store whose versions are those that its history put, each with the value put last. -/
structure Follows (s : Store) (past : List StoreOp) : Prop where
  wellFormed : s.WellFormed
  occupied : s.Occupied
  mem_versions : ∀ {key version value}, ⟨version, value⟩ ∈ s.versions key ↔
    (putsAt key version past).getLast? = some value

section

variable {s t : Store} {past ops : List StoreOp} {op : StoreOp}

/-! ## Puts of a history -/

/-- One more put counts at its own version of its own key. -/
theorem putsAt_concat_put (key : Bytes) (version : EntryVersion) (past : List StoreOp) (k : Bytes)
    (v : EntryVersion) (value : Option Bytes) :
    putsAt key version (past ++ [.put k v value]) =
      putsAt key version past ++ if k = key ∧ v = version then [value] else [] := by
  rw [putsAt, List.filterMap_append, putsAt]
  by_cases hplace : k = key ∧ v = version <;> simp [hplace]

/-- A change that puts nothing counts at no version. -/
theorem putsAt_concat_other (hop : op.isPut = false) (key : Bytes) (version : EntryVersion)
    (past : List StoreOp) : putsAt key version (past ++ [op]) = putsAt key version past := by
  rw [putsAt, List.filterMap_append, putsAt]
  cases op with
  | put k v value => cases hop
  | lock k owner => exact List.append_nil _
  | unlock owner => exact List.append_nil _
  | vacuum horizon => exact List.append_nil _

/-- Changes in another order drop no versions if the changes did not. -/
theorem Reordered.growing {ops' : List StoreOp} (h : Reordered ops ops') (hops : Growing ops) :
    Growing ops' := by
  rintro op hop horizon rfl
  have hother : StoreOp.vacuum horizon ∈ ops'.filter fun op => !op.isPut :=
    List.mem_filter.mpr ⟨hop, rfl⟩
  rw [h.others] at hother
  exact hops _ (List.mem_filter.mp hother).1 horizon rfl

/-! ## From one change to a history -/

/-- A store without rows has no history. -/
theorem Follows.empty : Follows {} [] :=
  ⟨WellFormed.empty, Occupied.empty, by simp [versions, putsAt, Table.get?]⟩

/-- A put adds to the versions what it adds to the history. -/
theorem Follows.mem_versions_put (h : s.Follows past) (k : Bytes) (v : EntryVersion)
    (found : Option Bytes) {key : Bytes} {version : EntryVersion} {value : Option Bytes} :
    ⟨version, value⟩ ∈ (s.execute (.put k v found)).versions key ↔
      (putsAt key version (past ++ [.put k v found])).getLast? = some value := by
  rw [versions_execute_put, putsAt_concat_put]
  by_cases hk : k = key
  · subst hk
    rw [if_pos rfl, (h.wellFormed.sorted k).mem_putVersion_iff]
    by_cases hv : version = v
    · simp [hv, eq_comm]
    · simp [hv, Ne.symm hv, h.mem_versions]
  · simp [hk, h.mem_versions]

/-- A store records one more change that it executes, unless the change drops versions. -/
theorem Follows.execute (h : s.Follows past) (hop : ∀ horizon, op ≠ .vacuum horizon) :
    (s.execute op).Follows (past ++ [op]) where
  wellFormed := h.wellFormed.execute op
  occupied := h.occupied.execute op
  mem_versions := by
    intro key version value
    cases op with
    | put k v found => exact h.mem_versions_put k v found
    | lock k owner => rw [putsAt_concat_other rfl]; exact h.mem_versions
    | unlock owner => rw [putsAt_concat_other rfl]; exact h.mem_versions
    | vacuum horizon => exact absurd rfl (hop horizon)

/-- A store records all changes that it executes, unless one of them drops versions. -/
theorem Follows.foldl_execute (h : s.Follows past) (hops : Growing ops) :
    (ops.foldl Store.execute s).Follows (past ++ ops) := by
  induction ops generalizing s past with
  | nil => rwa [List.append_nil]
  | cons op rest ih =>
    obtain ⟨hop, hrest⟩ := List.forall_mem_cons.mp hops
    rw [List.append_cons]
    exact ih (h.execute hop) hrest

/-- The store that changes build from nothing records them. -/
theorem follows_foldl_execute (hops : Growing ops) : (ops.foldl Store.execute {}).Follows ops :=
  Follows.empty.foldl_execute hops

/-! ## Locks of a history -/

/-- The locks depend on the locks before and on the changes that are no puts. -/
theorem locks_foldl_execute (hlocks : s.locks = t.locks) (ops : List StoreOp) :
    (ops.foldl Store.execute s).locks =
      ((ops.filter fun op => !op.isPut).foldl Store.execute t).locks := by
  induction ops generalizing s t with
  | nil => exact hlocks
  | cons op rest ih =>
    cases op with
    | put k v value => exact ih hlocks
    | lock k owner => exact ih (congrArg (Table.set k owner) hlocks)
    | unlock owner =>
      exact ih (congrArg (List.filter fun entry : Bytes × LockVersion => entry.2 != owner) hlocks)
    | vacuum horizon => exact ih hlocks

/-! ## Stores with one history -/

/-- Stores are equal if their histories leave the same value at every version of every key and
their locks are the same. -/
theorem Follows.ext {past' : List StoreOp} (h : s.Follows past) (h' : t.Follows past')
    (hputs : ∀ key version,
      (putsAt key version past).getLast? = (putsAt key version past').getLast?)
    (hlocks : s.locks = t.locks) : s = t := by
  refine h.wellFormed.ext h'.wellFormed h.occupied h'.occupied (fun key => ?_) fun key => ?_
  · refine (h.wellFormed.sorted key).ext (h'.wellFormed.sorted key) ?_
    rintro ⟨version, value⟩
    rw [h.mem_versions, h'.mem_versions, hputs]
  · rw [lockOwner, hlocks, lockOwner]

/-- A reader has the value of the greatest version put that it can see, and nothing if it can see
none. -/
theorem Follows.visible (h : s.Follows past) (key : Bytes) (snapshot : Option Snapshot) :
    ((∀ v, readable snapshot v = true → putsAt key v past = []) ∧ s.visible key snapshot = none) ∨
      ∃ version value,
        Newest (fun v => readable snapshot v = true ∧ putsAt key v past ≠ []) version ∧
          (putsAt key version past).getLast? = some value ∧ s.visible key snapshot = value := by
  have hseen : Sorted ((s.versions key).filter fun v => readable snapshot v.version) :=
    List.Pairwise.filter _ (h.wellFormed.sorted key)
  -- A version that was put is among those the reader looks through.
  have hput : ∀ v, readable snapshot v = true → putsAt key v past ≠ [] → ∃ value,
      ⟨v, value⟩ ∈ (s.versions key).filter fun v => readable snapshot v.version := by
    intro v hv hne
    refine ⟨(putsAt key v past).getLast hne, List.mem_filter.mpr ⟨?_, hv⟩⟩
    exact h.mem_versions.mpr (List.getLast?_eq_some_getLast hne)
  rw [Store.visible, visibleVersion_eq]
  cases hlast : ((s.versions key).filter fun v => readable snapshot v.version).getLast? with
  | none =>
    refine .inl ⟨fun v hv => ?_, rfl⟩
    by_contra hne
    obtain ⟨value, hmem⟩ := hput v hv hne
    rw [List.getLast?_eq_none_iff.mp hlast] at hmem
    cases hmem
  | some found =>
    obtain ⟨version, value⟩ := found
    obtain ⟨hfound, hreadable⟩ := List.mem_filter.mp (List.mem_of_getLast? hlast)
    have hvalue := h.mem_versions.mp hfound
    refine .inr ⟨version, value, ⟨⟨hreadable, fun hnil => ?_⟩, fun v hv => ?_⟩, hvalue, rfl⟩
    · rw [hnil] at hvalue
      cases hvalue
    · obtain ⟨value', hmem⟩ := hput v hv.1 hv.2
      exact (hseen.eq_or_lt_last hlast hmem).imp_left (congrArg VersionedValue.version)

/-! ## Histories that only grow -/

/-- Puts, locks and releases build a sorted map with versions: each key has exactly the versions
put on it in ascending order, with the values put last; the same changes in another order build
the same store if puts of one version of one key keep their order; and a reader has the value of
the greatest version put that it can see, which is none for a tombstone, and has none if it can
see no version. -/
theorem sorted_map_of_history (hops : Growing ops) :
    (∀ key, Sorted ((ops.foldl Store.execute {}).versions key) ∧
      ∀ version value, ⟨version, value⟩ ∈ (ops.foldl Store.execute {}).versions key ↔
        (putsAt key version ops).getLast? = some value) ∧
    (∀ ops', Reordered ops ops' → ops'.foldl Store.execute {} = ops.foldl Store.execute {}) ∧
    ∀ key snapshot,
      ((∀ v, readable snapshot v = true → putsAt key v ops = []) ∧
        (ops.foldl Store.execute {}).visible key snapshot = none) ∨
      ∃ version value,
        Newest (fun v => readable snapshot v = true ∧ putsAt key v ops ≠ []) version ∧
          (putsAt key version ops).getLast? = some value ∧
          (ops.foldl Store.execute {}).visible key snapshot = value := by
  have hrecords := follows_foldl_execute hops
  refine ⟨fun key => ⟨hrecords.wellFormed.sorted key, fun _ _ => hrecords.mem_versions⟩,
    fun ops' hreordered => ?_, hrecords.visible⟩
  refine (follows_foldl_execute (hreordered.growing hops)).ext hrecords (fun key version => ?_) ?_
  · rw [hreordered.puts]
  · rw [locks_foldl_execute rfl, hreordered.others, ← locks_foldl_execute rfl]

/-- Two versions of a key that are put in descending order, of which the greater one is put again,
and a tombstone of another key, around a lock that is released. In another order, with the two
puts of the greater version still one after the other, they build the same store, which has the
value put last at the greater version, and no value where the tombstone is. -/
theorem sorted_map_of_two_keys :
    let low : EntryVersion := ⟨1, 1⟩
    let high : EntryVersion := ⟨1, 2⟩
    let owner : LockVersion := ⟨1, 1, 100⟩
    let ops : List StoreOp :=
      [.put [7] high (some [10]), .lock [7] owner, .put [7] low (some [11]), .put [8] low none,
        .put [7] high (some [12]), .unlock owner]
    let ops' : List StoreOp :=
      [.lock [7] owner, .unlock owner, .put [8] low none, .put [7] low (some [11]),
        .put [7] high (some [10]), .put [7] high (some [12])]
    let s := ops.foldl Store.execute {}
    Growing ops ∧ Reordered ops ops' ∧ ops'.foldl Store.execute {} = s ∧
      ⟨high, some [12]⟩ ∈ s.versions [7] ∧ ⟨high, some [10]⟩ ∉ s.versions [7] ∧
      s.visible [7] none = some [12] ∧
      s.visible [7] (some ⟨1, 3, 0, 0, [2]⟩) = some [11] ∧ s.visible [8] none = none := by
  intro low high owner ops ops' s
  have hops : Growing ops := by
    intro op hop horizon
    have hkinds : ∀ op ∈ ops, (op matches .vacuum _) = false := by decide
    rintro rfl
    cases hkinds _ hop
  have hreordered : Reordered ops ops' := by
    refine ⟨fun key version => ?_, rfl⟩
    by_cases hkey : key = [7]
    · subst hkey
      by_cases hhigh : version = high
      · subst hhigh; rfl
      · simp [putsAt, ops, ops', List.filterMap_cons, Ne.symm hhigh]
    · simp [putsAt, ops, ops', List.filterMap_cons, Ne.symm hkey]
  obtain ⟨hversions, hsame, -⟩ := sorted_map_of_history hops
  refine ⟨hops, hreordered, hsame ops' hreordered, ?_, ?_, rfl, rfl, rfl⟩
  · exact ((hversions [7]).2 high (some [12])).mpr rfl
  · rw [(hversions [7]).2 high (some [10])]
    decide

end

end Store

end Enlistment
