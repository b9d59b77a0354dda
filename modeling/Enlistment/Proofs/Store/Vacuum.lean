import Enlistment.Proofs.Store.Changes

/-!
# What a vacuum leaves readable

Of the versions at or below its horizon a vacuum keeps the newest one of each key, and it forgets
a key that has a lone tombstone left. A reader that can see the newest version at or below the
horizon loses nothing: it reads this version or a newer one, and those are all kept.
-/

namespace Enlistment.Store

open Snapshot (readable)

/-- The newest of some versions at or below a horizon. -/
def newestBelow (horizon : EntryVersion) (versions : List VersionedValue) :
    Option VersionedValue :=
  (versions.filter fun v => (compare v.version horizon).isLE).getLast?

/-- The versions above a horizon. -/
def versionsAbove (horizon : EntryVersion) (versions : List VersionedValue) :
    List VersionedValue :=
  versions.filter fun v => !(compare v.version horizon).isLE

/-- Whether some versions are a single tombstone. -/
def isLoneTombstone : List VersionedValue → Bool
  | [⟨_, none⟩] => true
  | _ => false

section

variable {s : Store} {horizon : EntryVersion} {versions : List VersionedValue}

/-! ## What is superseded -/

/-- The first version is not the last one chosen if one of the others is chosen. -/
theorem getLast?_filter_cons {p : VersionedValue → Bool} {chosen : VersionedValue}
    {rest : List VersionedValue} (hmem : chosen ∈ rest) (hp : p chosen = true)
    (v : VersionedValue) : ((v :: rest).filter p).getLast? = (rest.filter p).getLast? := by
  rw [List.filter_cons]
  split
  · have hchosen : chosen ∈ rest.filter p := List.mem_filter.mpr ⟨hmem, hp⟩
    cases hrest : rest.filter p with
    | nil => rw [hrest] at hchosen; cases hchosen
    | cons first others => rw [List.getLast?_cons_cons]
  · rfl

/-- Where at most one of some sorted versions is at or below the horizon, none is superseded. -/
theorem Sorted.dropSuperseded_of_countBelow (h : Sorted versions)
    (hcount : countBelow horizon versions ≤ 1) : dropSuperseded horizon versions = versions := by
  unfold dropSuperseded
  split
  · next v w rest =>
    split
    · next hw =>
      have hvw : v.version < w.version := (List.pairwise_cons.mp h).1 w List.mem_cons_self
      have hv : (compare v.version horizon).isLE = true :=
        EntryVersion.isLE_compare_trans (EntryVersion.isLE_compare_iff.mpr (.inl hvw)) hw
      simp only [countBelow, List.countP_cons, hv, hw, if_true] at hcount
      omega
    · rfl
  · rfl

/-- Nothing is superseded where all versions but the first one lie above the horizon. -/
theorem newestBelow_append_versionsAbove {v : VersionedValue}
    (h : ∀ w ∈ versions, (compare w.version horizon).isLE = false) :
    (newestBelow horizon (v :: versions)).toList ++ versionsAbove horizon (v :: versions) =
      v :: versions := by
  have hbelow : (versions.filter fun w => (compare w.version horizon).isLE) = [] :=
    List.filter_eq_nil_iff.mpr fun w hw => Bool.not_eq_true _ ▸ h w hw
  have habove : (versions.filter fun w => !(compare w.version horizon).isLE) = versions :=
    List.filter_eq_self.mpr fun w hw => by rw [h w hw]; rfl
  unfold newestBelow versionsAbove
  rw [List.filter_cons, List.filter_cons, hbelow, habove]
  cases (compare v.version horizon).isLE <;> rfl

/-- Of sorted versions a vacuum keeps the newest one at or below the horizon and those above. -/
theorem Sorted.dropSuperseded_eq (h : Sorted versions) : dropSuperseded horizon versions =
    (newestBelow horizon versions).toList ++ versionsAbove horizon versions := by
  fun_induction dropSuperseded horizon versions with
  | case1 v w rest hw ih =>
    obtain ⟨hfirst, hrest⟩ := List.pairwise_cons.mp h
    have hv : (compare v.version horizon).isLE = true :=
      EntryVersion.isLE_compare_trans
        (EntryVersion.isLE_compare_iff.mpr (.inl (hfirst w List.mem_cons_self))) hw
    have habove : versionsAbove horizon (v :: w :: rest) = versionsAbove horizon (w :: rest) :=
      List.filter_cons_of_neg (by simp only [hv, Bool.not_true, Bool.false_eq_true,
        not_false_eq_true])
    rw [ih hrest, habove, newestBelow, newestBelow, getLast?_filter_cons List.mem_cons_self hw]
  | case2 v w rest hw =>
    have hw : horizon < w.version := EntryVersion.isLE_compare_eq_false.mp (eq_false_of_ne_true hw)
    have hbehind := (List.pairwise_cons.mp (List.pairwise_cons.mp h).2).1
    refine (newestBelow_append_versionsAbove fun u hu => ?_).symm
    rw [EntryVersion.isLE_compare_eq_false]
    rcases List.mem_cons.mp hu with rfl | hu
    · exact hw
    · exact EntryVersion.lt_trans hw (hbehind u hu)
  | case3 versions hshort =>
    rcases versions with _ | ⟨v, _ | ⟨w, rest⟩⟩
    · rfl
    · exact (newestBelow_append_versionsAbove fun w hw => absurd hw List.not_mem_nil).symm
    · exact (hshort v w rest rfl).elim

/-- No version at or below the horizon is newer than the newest one there. -/
theorem Sorted.le_newestBelow (h : Sorted versions) {newest v : VersionedValue}
    (hnewest : newest ∈ newestBelow horizon versions) (hv : v ∈ versions)
    (hbelow : (compare v.version horizon).isLE = true) :
    v = newest ∨ v.version < newest.version :=
  Sorted.eq_or_lt_last (List.Pairwise.filter _ h) hnewest (List.mem_filter.mpr ⟨hv, hbelow⟩)

/-- At most one version is kept at or below the horizon. -/
theorem Sorted.countBelow_dropSuperseded (h : Sorted versions) :
    countBelow horizon (dropSuperseded horizon versions) ≤ 1 := by
  have habove : countBelow horizon (versionsAbove horizon versions) = 0 :=
    List.countP_eq_zero.mpr fun v hv => by
      have hv := (List.mem_filter.mp hv).2
      rwa [Bool.not_eq_true', ← Bool.not_eq_true] at hv
  have hone : (newestBelow horizon versions).toList.length ≤ 1 := by
    cases newestBelow horizon versions with
    | none => exact Nat.zero_le 1
    | some newest => exact Nat.le_refl 1
  rw [h.dropSuperseded_eq, countBelow, List.countP_append]
  exact Nat.le_trans (Nat.add_le_add List.countP_le_length (Nat.le_of_eq habove)) hone

/-! ## Lone tombstones -/

/-- A vacuum forgets a key if a lone tombstone would be left. -/
theorem vacuumVersions_eq (horizon : EntryVersion) (versions : List VersionedValue) :
    vacuumVersions horizon versions =
      if isLoneTombstone (dropSuperseded horizon versions) then none
      else some (dropSuperseded horizon versions) := by
  unfold vacuumVersions
  split
  · next hlone => rw [hlone]; rfl
  · next kept hkept =>
    unfold isLoneTombstone
    split
    · next version hlone => exact absurd hlone (hkept version)
    · rfl

/-- A vacuum leaves each key what is not superseded, unless this is a lone tombstone. -/
theorem WellFormed.versions_execute_vacuum_eq (h : s.WellFormed) (horizon : EntryVersion)
    (key : Bytes) : (s.execute (.vacuum horizon)).versions key =
      if isLoneTombstone (dropSuperseded horizon (s.versions key)) then []
      else dropSuperseded horizon (s.versions key) := by
  rw [h.versions_execute_vacuum, Store.versions]
  cases s.data.get? key with
  | none => rfl
  | some found =>
    rw [Option.bind_some, vacuumVersions_eq, Option.getD_some]
    split <;> rfl

/-- A lone tombstone reads as no value. -/
theorem visibleVersion_of_isLoneTombstone (snapshot : Option Snapshot)
    (hlone : isLoneTombstone versions = true) :
    (visibleVersion snapshot versions).bind VersionedValue.value = none := by
  unfold isLoneTombstone at hlone
  split at hlone
  · rw [visibleVersion_eq, List.filter_cons]
    split <;> rfl
  · cases hlone

/-- To forget versions only if they are a lone tombstone makes no difference to a reader. -/
theorem visibleVersion_forget {forgotten : Prop} [Decidable forgotten]
    (hlone : forgotten → isLoneTombstone versions = true) (snapshot : Option Snapshot) :
    (visibleVersion snapshot (if forgotten then [] else versions)).bind VersionedValue.value =
      (visibleVersion snapshot versions).bind VersionedValue.value := by
  split
  · next h =>
    rw [visibleVersion_of_isLoneTombstone snapshot (hlone h)]
    cases snapshot <;> rfl
  · rfl

/-! ## What is read -/

/-- Dropping superseded versions makes no difference to a reader that can see the newest version
at or below the horizon. -/
theorem visibleVersion_dropSuperseded {snapshot : Option Snapshot}
    (hnewest : ∀ v ∈ newestBelow horizon versions, readable snapshot v.version = true) :
    visibleVersion snapshot (dropSuperseded horizon versions) =
      visibleVersion snapshot versions := by
  fun_induction dropSuperseded horizon versions with
  | case1 v w rest hbelow ih =>
    -- the version that is dropped is followed by another one below the horizon
    have hw : w ∈ w :: rest := List.mem_cons_self
    rw [newestBelow, getLast?_filter_cons hw hbelow, ← newestBelow] at hnewest
    obtain ⟨newest, hsome⟩ : ∃ newest, newestBelow horizon (w :: rest) = some newest := by
      rw [← Option.ne_none_iff_exists', newestBelow, Ne, List.getLast?_eq_none_iff]
      exact List.ne_nil_of_mem (List.mem_filter.mpr ⟨hw, hbelow⟩)
    have hmem : newest ∈ w :: rest := (List.mem_filter.mp (List.mem_of_getLast? hsome)).1
    rw [ih hnewest, visibleVersion_eq, visibleVersion_eq,
      getLast?_filter_cons hmem (hnewest newest hsome)]
  | case2 v w rest hbelow => rfl
  | case3 versions hshort => rfl

/-- Executing a vacuum makes no difference to a reader that can see the newest version of a key
at or below the horizon, nor to any reader if the key has none. -/
theorem WellFormed.visible_execute_vacuum (h : s.WellFormed) {snapshot : Option Snapshot}
    {key : Bytes}
    (hnewest : ∀ v ∈ newestBelow horizon (s.versions key), readable snapshot v.version = true) :
    (s.execute (.vacuum horizon)).visible key snapshot = s.visible key snapshot := by
  rw [visible, visible, h.versions_execute_vacuum_eq, ← visibleVersion_dropSuperseded hnewest]
  exact visibleVersion_forget (fun hlone => hlone) snapshot

/-- A vacuum makes no difference to a reader that can see the newest version of a key at or
below the horizon, nor to any reader if the key has none. -/
theorem WellFormed.visible_apply_vacuum {s : Store} (h : s.WellFormed) {horizon : EntryVersion}
    {snapshot : Option Snapshot} {key : Bytes}
    (hnewest : ∀ v ∈ newestBelow horizon (s.versions key), readable snapshot v.version = true) :
    (s.apply (.vacuum horizon)).visible key snapshot = s.visible key snapshot := by
  unfold Store.apply
  split
  · rfl
  · exact h.visible_execute_vacuum hnewest

/-- What a vacuum keeps. In a store with any history a key keeps its newest version at or below
the horizon and all its versions above, or none at all if this would be a lone tombstone. The
newest value stays the same, and so does what is read with a snapshot that can see the newest
version at or below the horizon, or with any snapshot if there is no such version. All other
versions at or below the horizon are older than this one. -/
theorem reads_kept_by_vacuum (history : List StoreOp) (horizon : EntryVersion) (key : Bytes) :
    let s : Store := history.foldl execute {}
    let t : Store := s.execute (.vacuum horizon)
    let kept := (newestBelow horizon (s.versions key)).toList ++
      versionsAbove horizon (s.versions key)
    t.visible key none = s.visible key none ∧
    (∀ snapshot, (∀ v ∈ newestBelow horizon (s.versions key), snapshot.sees v.version = true) →
      t.visible key (some snapshot) = s.visible key (some snapshot)) ∧
    countBelow horizon (t.versions key) ≤ 1 ∧
    (t.versions key = if isLoneTombstone kept then [] else kept) ∧
    ∀ newest ∈ newestBelow horizon (s.versions key), ∀ v ∈ s.versions key,
      (compare v.version horizon).isLE = true → v = newest ∨ v.version < newest.version := by
  intro s t kept
  have h : s.WellFormed := WellFormed.empty.foldl_execute history
  have hkept : t.versions key = if isLoneTombstone kept then [] else kept := by
    rw [h.versions_execute_vacuum_eq, (h.sorted key).dropSuperseded_eq]
  refine ⟨h.visible_execute_vacuum fun v hv => rfl,
    fun snapshot hsees => h.visible_execute_vacuum hsees, ?_, hkept,
    fun newest hnewest v hv hbelow => (h.sorted key).le_newestBelow hnewest hv hbelow⟩
  rw [hkept]
  split
  · exact Nat.zero_le 1
  · have hcount : countBelow horizon (dropSuperseded horizon (s.versions key)) ≤ 1 :=
      (h.sorted key).countBelow_dropSuperseded
    rwa [(h.sorted key).dropSuperseded_eq] at hcount

/-- A snapshot below the last version of a key reads the one before, which the vacuum keeps. A
tombstone above the horizon is kept behind a value and forgotten where it is alone. -/
theorem reads_kept_by_vacuum_of_three_keys :
    let history : List StoreOp :=
      [.put [7] ⟨1, 1⟩ (some [10]), .put [7] ⟨1, 2⟩ (some [11]), .put [7] ⟨1, 5⟩ (some [12]),
        .put [8] ⟨1, 1⟩ (some [13]), .put [8] ⟨1, 6⟩ none, .put [9] ⟨1, 6⟩ none]
    let horizon : EntryVersion := ⟨1, 3⟩
    let snapshot : Snapshot := ⟨1, 4, 0, 0, []⟩
    let s : Store := history.foldl execute {}
    let t : Store := s.execute (.vacuum horizon)
    (∀ v ∈ newestBelow horizon (s.versions [7]), snapshot.sees v.version = true) ∧
      s.visible [7] (some snapshot) = some [11] ∧
      t.visible [7] (some snapshot) = some [11] ∧
      t.versions [7] = [⟨⟨1, 2⟩, some [11]⟩, ⟨⟨1, 5⟩, some [12]⟩] ∧
      t.versions [8] = [⟨⟨1, 1⟩, some [13]⟩, ⟨⟨1, 6⟩, none⟩] ∧ t.versions [9] = [] := by
  intro history horizon snapshot s t
  have hsees : ∀ v ∈ newestBelow horizon (s.versions [7]), snapshot.sees v.version = true := by
    decide +kernel
  have hread : s.visible [7] (some snapshot) = some [11] := by decide +kernel
  obtain ⟨-, hsnapshot, -, hversions, -⟩ := reads_kept_by_vacuum history horizon [7]
  refine ⟨hsees, hread, (hsnapshot snapshot hsees).trans hread, hversions, ?_, ?_⟩
  · exact (reads_kept_by_vacuum history horizon [8]).2.2.2.1
  · exact (reads_kept_by_vacuum history horizon [9]).2.2.2.1

end

end Enlistment.Store
