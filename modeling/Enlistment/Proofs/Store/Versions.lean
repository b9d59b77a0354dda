import Enlistment.Proofs.Store.Tables
import Enlistment.Store
import Mathlib.Algebra.Group.Int.Defs
import Mathlib.Algebra.Ring.Nat

/-!
# Versions of a key

The versions of a key ascend strictly, whatever is put and dropped. A reader takes the
last version it can see. A version it cannot see makes no difference to it, and one above
all that it can see is what it reads.
-/

namespace Enlistment

/-- A counter below the greatest number of 64 bits counts on. -/
theorem toInt_add_one {counter : Int64} (h : counter.toInt + 1 < 2 ^ 63) :
    (counter + 1).toInt = counter.toInt + 1 := by
  have hlow := counter.le_toInt
  have hone : (1 : Int64).toInt = 1 := rfl
  rw [Int64.toInt_add, hone, Int.bmod_eq_of_le] <;> omega

namespace EntryVersion

variable {u v w : EntryVersion}

/-- Versions of one coordinator are ordered by their counters. -/
theorem lt_iff : v < w ↔
    v.coordinator < w.coordinator ∨ v.coordinator = w.coordinator ∧ v.counter < w.counter := by
  show (Ord.compare v.coordinator w.coordinator).then (Ord.compare v.counter w.counter) = .lt ↔ _
  rw [Ordering.then_eq_lt, Std.compare_eq_lt, Std.compare_eq_iff_eq, Std.compare_eq_lt]

/-- Versions that compare as equal are equal. -/
theorem compare_eq_eq : Ord.compare v w = .eq ↔ v = w := by
  obtain ⟨coordinator, counter⟩ := v
  obtain ⟨coordinator', counter'⟩ := w
  show (Ord.compare coordinator coordinator').then (Ord.compare counter counter') = .eq ↔ _
  rw [Ordering.then_eq_eq, Std.compare_eq_iff_eq, Std.compare_eq_iff_eq, mk.injEq]

/-- A version that compares as greater is greater. -/
theorem compare_eq_gt : Ord.compare v w = .gt ↔ w < v := by
  show (Ord.compare v.coordinator w.coordinator).then (Ord.compare v.counter w.counter) = .gt ↔ _
  rw [Ordering.then_eq_gt, Std.compare_eq_gt, Std.compare_eq_iff_eq, Std.compare_eq_gt, lt_iff,
    eq_comm (a := v.coordinator)]

/-- A version compares as at most another one if it is less or the same. -/
theorem isLE_compare_iff : (Ord.compare v w).isLE = true ↔ v < w ∨ v = w := by
  rw [Ordering.isLE_iff_eq_lt_or_eq_eq, compare_eq_eq]
  exact Iff.rfl

/-- A version does not compare as at most the ones below it. -/
theorem isLE_compare_eq_false : (Ord.compare v w).isLE = false ↔ w < v := by
  rw [Ordering.isLE_eq_false, compare_eq_gt]

/-- No version is less than itself. -/
theorem lt_irrefl : ¬ v < v := by
  rw [lt_iff]
  rintro (h | ⟨-, h⟩) <;> exact Int64.lt_irrefl h

/-- The order of versions is transitive. -/
theorem lt_trans (huv : u < v) (hvw : v < w) : u < w := by
  rw [lt_iff] at huv hvw ⊢
  rcases huv with huv | ⟨heq, huv⟩ <;> rcases hvw with hvw | ⟨heq', hvw⟩
  · exact .inl (Int64.lt_trans huv hvw)
  · exact .inl (heq' ▸ huv)
  · exact .inl (heq ▸ hvw)
  · exact .inr ⟨heq.trans heq', Int64.lt_trans huv hvw⟩

/-- The order of versions by comparison is transitive. -/
theorem isLE_compare_trans (huv : (Ord.compare u v).isLE = true)
    (hvw : (Ord.compare v w).isLE = true) : (Ord.compare u w).isLE = true := by
  rw [isLE_compare_iff] at huv hvw ⊢
  rcases huv with huv | rfl
  · rcases hvw with hvw | rfl
    · exact .inl (lt_trans huv hvw)
    · exact .inl huv
  · exact hvw

end EntryVersion

namespace Snapshot

/-- Whether a version can be read with a snapshot, or without one. -/
def readable (snapshot : Option Snapshot) (v : EntryVersion) : Bool :=
  snapshot.all fun s => s.sees v

/-- A snapshot sees what its own transaction writes. -/
theorem sees_version (s : Snapshot) : s.sees s.version = true := by
  have hsame : Ord.compare s.version.coordinator s.coordinator = .eq :=
    Std.compare_eq_iff_eq.mpr rfl
  rw [sees, hsame]
  simp [version]

/-- A snapshot sees no version above the one that its own transaction writes. -/
theorem not_lt_of_sees {s : Snapshot} {v : EntryVersion} (h : s.sees v = true) :
    ¬ s.version < v := by
  rw [EntryVersion.lt_iff]
  unfold sees at h
  rintro (hlt | ⟨heq, hlt⟩)
  · have habove : s.coordinator < v.coordinator := hlt
    rw [Std.compare_eq_gt.mpr habove] at h
    cases h
  · have hsame : s.coordinator = v.coordinator := heq
    rw [Std.compare_eq_iff_eq.mpr hsame.symm] at h
    simp only [Bool.or_eq_true, Bool.and_eq_true, decide_eq_true_eq] at h
    have hcounter : s.counter < v.counter := hlt
    rcases h with heq | ⟨hgt, -⟩
    · rw [heq] at hcounter
      exact Int64.lt_irrefl hcounter
    · exact Int64.lt_irrefl (Int64.lt_trans hcounter hgt)

end Snapshot

namespace Store

open Snapshot (readable)

/-- Versions of one key in strictly ascending order. -/
def Sorted (versions : List VersionedValue) : Prop :=
  versions.Pairwise fun a b => a.version < b.version

/-- A reader takes the last version it can see. -/
theorem visibleVersion_eq (snapshot : Option Snapshot) (versions : List VersionedValue) :
    visibleVersion snapshot versions =
      (versions.filter fun v => readable snapshot v.version).getLast? := by
  cases snapshot with
  | none =>
    have hall : versions.filter (fun v => readable none v.version) = versions :=
      List.filter_eq_self.mpr fun _ _ => rfl
    rw [hall]
    rfl
  | some s =>
    rw [List.getLast?_filter]
    rfl

/-! ## Putting a version -/

section

variable {version : EntryVersion} {value : Option Bytes} {versions : List VersionedValue}

/-- A version that is put is the only one that may be new. -/
theorem mem_putVersion {v : VersionedValue} (h : v ∈ putVersion version value versions) :
    v = ⟨version, value⟩ ∨ v ∈ versions := by
  induction versions with
  | nil => exact .inl (List.mem_singleton.mp h)
  | cons first rest ih =>
    unfold putVersion at h
    split at h
    · rcases List.mem_cons.mp h with rfl | h
      · exact .inr (List.mem_cons_self ..)
      · exact (ih h).imp_right (List.mem_cons_of_mem _)
    · rcases List.mem_cons.mp h with h | h
      · exact .inl h
      · exact .inr (List.mem_cons_of_mem _ h)
    · exact List.mem_cons.mp h

/-- Putting a version keeps versions sorted. -/
theorem Sorted.putVersion (h : Sorted versions) : Sorted (putVersion version value versions) := by
  induction versions with
  | nil => exact List.pairwise_singleton _ _
  | cons first rest ih =>
    obtain ⟨hfirst, hrest⟩ := List.pairwise_cons.mp h
    unfold Store.putVersion
    split
    · next hlt =>
      refine List.pairwise_cons.mpr ⟨fun v hv => ?_, ih hrest⟩
      rcases mem_putVersion hv with rfl | hv
      · exact hlt
      · exact hfirst v hv
    · next heq =>
      obtain rfl := EntryVersion.compare_eq_eq.mp heq
      exact List.pairwise_cons.mpr ⟨hfirst, hrest⟩
    · next hgt =>
      have hlt := EntryVersion.compare_eq_gt.mp hgt
      refine List.pairwise_cons.mpr ⟨fun v hv => ?_, h⟩
      rcases List.mem_cons.mp hv with rfl | hv
      · exact hlt
      · exact EntryVersion.lt_trans hlt (hfirst v hv)

/-- After a version is put among sorted versions it has the value put, and the others have theirs. -/
theorem Sorted.mem_putVersion_iff (h : Sorted versions) {v : EntryVersion}
    {found : Option Bytes} : ⟨v, found⟩ ∈ Store.putVersion version value versions ↔
      if v = version then found = value else ⟨v, found⟩ ∈ versions := by
  -- Above the place of the version it does not occur.
  have habsent : ∀ {rest : List VersionedValue}, (∀ w ∈ rest, version < w.version) →
      ∀ {found}, (⟨version, found⟩ : VersionedValue) ∉ rest := by
    intro rest habove found hmem
    have hself : version < version := habove ⟨version, found⟩ hmem
    exact EntryVersion.lt_irrefl hself
  induction versions with
  | nil =>
    rw [Store.putVersion, List.mem_singleton, VersionedValue.mk.injEq]
    split
    · next hv => simp only [hv, true_and]
    · next hv => simp only [hv, false_and, List.not_mem_nil]
  | cons first rest ih =>
    obtain ⟨hfirst, hrest⟩ := List.pairwise_cons.mp h
    unfold Store.putVersion
    split
    · next hlt =>
      simp only [List.mem_cons, ih hrest]
      split
      · next hv =>
        have hne : (⟨v, found⟩ : VersionedValue) ≠ first := fun heq => by
          rw [← heq, hv] at hlt
          exact EntryVersion.lt_irrefl hlt
        simp only [hne, false_or]
      · exact Iff.rfl
    · next heq =>
      obtain rfl := EntryVersion.compare_eq_eq.mp heq
      rw [List.mem_cons, List.mem_cons, VersionedValue.mk.injEq]
      split
      · next hv =>
        subst hv
        simp only [true_and, habsent hfirst, or_false]
      · next hv =>
        have hne : (⟨v, found⟩ : VersionedValue) ≠ first := fun h =>
          hv (congrArg VersionedValue.version h)
        simp only [hv, hne, false_and, false_or]
    · next hgt =>
      have hlt := EntryVersion.compare_eq_gt.mp hgt
      have habove : ∀ w ∈ first :: rest, version < w.version :=
        List.forall_mem_cons.mpr ⟨hlt, fun w hw => EntryVersion.lt_trans hlt (hfirst w hw)⟩
      rw [List.mem_cons, VersionedValue.mk.injEq]
      split
      · next hv =>
        subst hv
        simp only [true_and, habsent habove, or_false]
      · next hv => simp only [hv, false_and, false_or]

/-- Sorted versions are determined by which versions are among them. -/
theorem Sorted.ext {others : List VersionedValue} (h : Sorted versions) (h' : Sorted others)
    (hmem : ∀ v, v ∈ versions ↔ v ∈ others) : versions = others := by
  have hdistinct : ∀ {l : List VersionedValue}, Sorted l → l.Nodup := by
    intro l hl
    refine List.Pairwise.imp (fun hlt heq => ?_) hl
    rw [heq] at hlt
    exact EntryVersion.lt_irrefl hlt
  refine List.Perm.eq_of_pairwise (fun a b _ _ hab hba => ?_) h h' ?_
  · exact absurd (EntryVersion.lt_trans hab hba) EntryVersion.lt_irrefl
  · exact (List.perm_ext_iff_of_nodup (hdistinct h) (hdistinct h')).mpr hmem

/-- No version is above the last one of sorted versions. -/
theorem Sorted.eq_or_lt_last (h : Sorted versions) {last : VersionedValue}
    (hlast : versions.getLast? = some last) {v : VersionedValue} (hv : v ∈ versions) :
    v = last ∨ v.version < last.version := by
  obtain ⟨before, rfl⟩ := List.getLast?_eq_some_iff.mp hlast
  rcases List.mem_append.mp hv with hv | hv
  · exact .inr ((List.pairwise_append.mp h).2.2 v hv last (List.mem_singleton_self _))
  · exact .inl (List.mem_singleton.mp hv)

/-- Putting the last version once more changes nothing. -/
theorem Sorted.putVersion_last (h : Sorted versions)
    (hlast : versions.getLast? = some ⟨version, value⟩) :
    Store.putVersion version value versions = versions := by
  induction versions with
  | nil => cases hlast
  | cons first rest ih =>
    obtain ⟨hfirst, hrest⟩ := List.pairwise_cons.mp h
    cases rest with
    | nil =>
      rw [List.getLast?_singleton] at hlast
      obtain rfl := Option.some.inj hlast
      simp only [Store.putVersion, EntryVersion.compare_eq_eq.mpr rfl]
    | cons second others =>
      rw [List.getLast?_cons_cons] at hlast
      have hlt : first.version < version := hfirst ⟨version, value⟩ (List.mem_of_getLast? hlast)
      have hcompare : Ord.compare first.version version = .lt := hlt
      simp only [Store.putVersion, hcompare]
      rw [← Store.putVersion, ih hrest hlast]

/-- There is a version where one was put. -/
theorem putVersion_ne_nil (version : EntryVersion) (value : Option Bytes)
    (versions : List VersionedValue) : putVersion version value versions ≠ [] := by
  cases versions with
  | nil => exact List.cons_ne_nil _ _
  | cons first rest =>
    unfold putVersion
    split <;> exact List.cons_ne_nil _ _

/-- A version that a reader cannot see makes no difference to what it can see. -/
theorem filter_putVersion_of_not {p : EntryVersion → Bool} (hp : p version = false) :
    (putVersion version value versions).filter (fun v => p v.version) =
      versions.filter fun v => p v.version := by
  induction versions with
  | nil => exact List.filter_cons_of_neg (by simp [hp])
  | cons first rest ih =>
    unfold putVersion
    split
    · rw [List.filter_cons, List.filter_cons, ih]
    · next heq =>
      obtain rfl := EntryVersion.compare_eq_eq.mp heq
      rw [List.filter_cons_of_neg (by simp [hp]), List.filter_cons_of_neg (by simp [hp])]
    · exact List.filter_cons_of_neg (by simp [hp])

/-- Above a version that nothing readable exceeds, nothing is readable. -/
theorem filter_eq_nil_of_above {p : EntryVersion → Bool} {rest : List VersionedValue}
    (habove : ∀ v ∈ rest, version < v.version)
    (htop : ∀ v ∈ rest, p v.version = true → ¬ version < v.version) :
    rest.filter (fun v => p v.version) = [] :=
  List.filter_eq_nil_iff.mpr fun v hv hp => htop v hv hp (habove v hv)

/-- A version that a reader can see, and that nothing it can see exceeds, is what it reads. -/
theorem Sorted.getLast?_filter_putVersion {p : EntryVersion → Bool} (h : Sorted versions)
    (hp : p version = true) (htop : ∀ v ∈ versions, p v.version = true → ¬ version < v.version) :
    ((Store.putVersion version value versions).filter fun v => p v.version).getLast? =
      some ⟨version, value⟩ := by
  induction versions with
  | nil => simp [Store.putVersion, hp]
  | cons first rest ih =>
    obtain ⟨hfirst, hrest⟩ := List.pairwise_cons.mp h
    have htop' : ∀ v ∈ rest, p v.version = true → ¬ version < v.version :=
      fun v hv => htop v (List.mem_cons_of_mem _ hv)
    unfold Store.putVersion
    split
    · have hlast := ih hrest htop'
      rw [List.filter_cons]
      split
      · rw [List.getLast?_cons, hlast]
        rfl
      · exact hlast
    · next heq =>
      obtain rfl := EntryVersion.compare_eq_eq.mp heq
      rw [List.filter_cons_of_pos (by exact hp), filter_eq_nil_of_above hfirst htop']
      rfl
    · next hgt =>
      have hlt := EntryVersion.compare_eq_gt.mp hgt
      have habove : ∀ v ∈ first :: rest, version < v.version :=
        List.forall_mem_cons.mpr ⟨hlt, fun v hv => EntryVersion.lt_trans hlt (hfirst v hv)⟩
      rw [List.filter_cons_of_pos (by exact hp), filter_eq_nil_of_above habove htop]
      rfl

end

/-! ## Dropping versions -/

/-- What is left after dropping superseded versions are the last ones. -/
theorem dropSuperseded_suffix (horizon : EntryVersion) (versions : List VersionedValue) :
    dropSuperseded horizon versions <:+ versions := by
  fun_induction dropSuperseded horizon versions with
  | case1 v w rest hbelow ih => exact ih.trans (List.suffix_cons _ _)
  | case2 v w rest hbelow => exact List.suffix_refl _
  | case3 versions hshort => exact List.suffix_refl _

/-- The last version is never dropped. -/
theorem dropSuperseded_ne_nil {horizon : EntryVersion} {versions : List VersionedValue}
    (h : versions ≠ []) : dropSuperseded horizon versions ≠ [] := by
  fun_induction dropSuperseded horizon versions with
  | case1 v w rest hbelow ih => exact ih (List.cons_ne_nil _ _)
  | case2 v w rest hbelow => exact h
  | case3 versions hshort => exact h

/-- A vacuum that keeps a key keeps a version of it. -/
theorem vacuumVersions_ne_nil {horizon : EntryVersion} {versions kept : List VersionedValue}
    (h : versions ≠ []) (hkept : vacuumVersions horizon versions = some kept) : kept ≠ [] := by
  unfold vacuumVersions at hkept
  split at hkept
  · cases hkept
  · rw [← Option.some.inj hkept]
    exact dropSuperseded_ne_nil h

/-- A vacuum keeps versions sorted. -/
theorem Sorted.vacuumVersions {horizon : EntryVersion} {versions kept : List VersionedValue}
    (h : Sorted versions) (hkept : vacuumVersions horizon versions = some kept) : Sorted kept := by
  have hdropped : Sorted (dropSuperseded horizon versions) :=
    h.sublist (dropSuperseded_suffix horizon versions).sublist
  unfold Store.vacuumVersions at hkept
  split at hkept
  · cases hkept
  · rwa [← Option.some.inj hkept]

end Store

end Enlistment
