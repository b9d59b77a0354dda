import Enlistment.Proofs.Store.Skipping

/-!
# Vacuums one after the other

Two vacuums leave what a single one at the greater of their horizons leaves: the first one drops
nothing that the single one keeps, and a key that it forgets is one that the single one forgets.
The same holds on a node that skips vacuums it takes to have no effect.
-/

namespace Enlistment

/-- The later of two versions. -/
instance : Max EntryVersion := maxOfLe

namespace EntryVersion

variable {u v w : EntryVersion}

/-- One of two versions is at most the other, and this is the later one. -/
theorem max_cases (v w : EntryVersion) :
    (Ord.compare v w).isLE = true ∧ max v w = w ∨ (Ord.compare w v).isLE = true ∧ max v w = v := by
  show _ ∧ (if (Ord.compare v w).isLE = true then w else v) = w ∨
    _ ∧ (if (Ord.compare v w).isLE = true then w else v) = v
  split
  · next h => exact .inl ⟨h, rfl⟩
  · next h =>
    refine .inr ⟨?_, rfl⟩
    exact isLE_compare_iff.mpr (.inl (isLE_compare_eq_false.mp (eq_false_of_ne_true h)))

/-- A version is the later one of itself and itself. -/
theorem max_self (v : EntryVersion) : max v v = v := by
  rcases max_cases v v with ⟨-, h⟩ | ⟨-, h⟩ <;> exact h

/-- Which of two versions is the later one does not depend on their order. -/
theorem max_comm (v w : EntryVersion) : max v w = max w v := by
  -- Versions that are at most each other are the same.
  have hantisymm : ∀ {v w : EntryVersion}, (Ord.compare v w).isLE = true →
      (Ord.compare w v).isLE = true → v = w := by
    intro v w hvw hwv
    rcases isLE_compare_iff.mp hvw with hlt | rfl
    · rw [isLE_compare_eq_false.mpr hlt] at hwv
      cases hwv
    · rfl
  rcases max_cases v w with ⟨hle, h⟩ | ⟨hle, h⟩ <;>
    rcases max_cases w v with ⟨hle', h'⟩ | ⟨hle', h'⟩ <;> rw [h, h']
  · exact hantisymm hle' hle
  · exact hantisymm hle' hle

end EntryVersion

namespace Store

variable {s : Store} {h₁ h₂ : EntryVersion}

/-- What is not superseded at one horizon and then at another one is what is not superseded at
the later one. -/
theorem dropSuperseded_dropSuperseded (h₁ h₂ : EntryVersion) (versions : List VersionedValue) :
    dropSuperseded h₂ (dropSuperseded h₁ versions) = dropSuperseded (max h₁ h₂) versions := by
  fun_induction dropSuperseded h₁ versions with
  | case1 v w rest hw ih =>
    have hbelow : (compare w.version (max h₁ h₂)).isLE = true := by
      rcases EntryVersion.max_cases h₁ h₂ with ⟨hle, hmax⟩ | ⟨hle, hmax⟩
      · rw [hmax]
        exact EntryVersion.isLE_compare_trans hw hle
      · rwa [hmax]
    rw [ih, dropSuperseded, if_pos hbelow]
  | case2 v w rest hw =>
    rcases EntryVersion.max_cases h₁ h₂ with ⟨hle, hmax⟩ | ⟨hle, hmax⟩
    · rw [hmax]
    · -- nothing is superseded at the first horizon, let alone at the one below it
      have hw₂ : ¬ (compare w.version h₂).isLE = true :=
        fun hbelow => hw (EntryVersion.isLE_compare_trans hbelow hle)
      rw [hmax, dropSuperseded, dropSuperseded, if_neg hw, if_neg hw₂]
  | case3 versions hshort =>
    rcases versions with _ | ⟨v, _ | ⟨w, rest⟩⟩
    · rfl
    · rfl
    · exact (hshort v w rest rfl).elim

/-- A lone tombstone is not superseded at any horizon. -/
theorem dropSuperseded_of_isLoneTombstone {versions : List VersionedValue}
    (hlone : isLoneTombstone versions = true) (horizon : EntryVersion) :
    dropSuperseded horizon versions = versions := by
  unfold isLoneTombstone at hlone
  split at hlone
  · rfl
  · cases hlone

/-- Two vacuums leave each key what one at the later horizon leaves it. -/
theorem WellFormed.versions_execute_vacuum_twice (h : s.WellFormed) (h₁ h₂ : EntryVersion)
    (key : Bytes) : ((s.execute (.vacuum h₁)).execute (.vacuum h₂)).versions key =
      (s.execute (.vacuum (max h₁ h₂))).versions key := by
  rw [(h.execute _).versions_execute_vacuum_eq, h.versions_execute_vacuum_eq,
    h.versions_execute_vacuum_eq, ← dropSuperseded_dropSuperseded]
  cases hlone : isLoneTombstone (dropSuperseded h₁ (s.versions key)) with
  | false => rfl
  | true => rw [dropSuperseded_of_isLoneTombstone hlone, if_pos hlone]; rfl

/-- Two vacuums leave the store that one at the later horizon leaves. -/
theorem WellFormed.execute_vacuum_twice (h : s.WellFormed) (hs : s.Occupied)
    (h₁ h₂ : EntryVersion) : (s.execute (.vacuum h₁)).execute (.vacuum h₂) =
      s.execute (.vacuum (max h₁ h₂)) := by
  have hlocks : ((s.execute (.vacuum h₁)).execute (.vacuum h₂)).locks =
      (s.execute (.vacuum (max h₁ h₂))).locks := rfl
  refine ((h.execute _).execute _).ext (h.execute _) ((hs.execute _).execute _) (hs.execute _)
    (h.versions_execute_vacuum_twice h₁ h₂) fun key => ?_
  rw [lockOwner, hlocks, lockOwner]

/-! ## Skipped vacuums -/

/-- A vacuum leaves no lone tombstone. -/
theorem WellFormed.hasLoneTombstone_execute_vacuum (h : s.WellFormed) (horizon : EntryVersion) :
    (s.execute (.vacuum horizon)).hasLoneTombstone = false := by
  rw [← Bool.not_eq_true, (h.execute _).hasLoneTombstone_iff]
  rintro ⟨key, hlone⟩
  rw [h.versions_execute_vacuum_eq] at hlone
  split at hlone
  · cases hlone
  · next hkept => exact hkept hlone

/-- A vacuum below one that is taken to have no effect is taken to have none either. -/
theorem isNoop_vacuum_of_isLE (hle : (compare h₂ h₁).isLE = true)
    (hnoop : s.isNoop (.vacuum h₁) = true) : s.isNoop (.vacuum h₂) = true := by
  refine List.all_eq_true.mpr fun entry hentry => decide_eq_true ?_
  have hcount : countBelow h₁ entry.2 ≤ 1 :=
    of_decide_eq_true (List.all_eq_true.mp hnoop entry hentry)
  refine Nat.le_trans (List.countP_mono_left fun v _ hv => ?_) hcount
  exact EntryVersion.isLE_compare_trans hv hle

/-- Two vacuums, each skipped if it is taken to have no effect, leave the store that one at the
later horizon leaves if this is skipped in the same case. -/
theorem WellFormed.apply_vacuum_twice (h : s.WellFormed) (hs : s.Occupied)
    (h₁ h₂ : EntryVersion) :
    (s.apply (.vacuum h₁)).apply (.vacuum h₂) = s.apply (.vacuum (max h₁ h₂)) := by
  cases hnoop : s.isNoop (.vacuum h₁) with
  | true =>
    have hfirst : s.apply (.vacuum h₁) = s := if_pos hnoop
    rw [hfirst]
    rcases EntryVersion.max_cases h₁ h₂ with ⟨hle, hmax⟩ | ⟨hle, hmax⟩
    · rw [hmax]
    · rw [hmax, hfirst]
      exact if_pos (isNoop_vacuum_of_isLE hle hnoop)
  | false =>
    have hfirst : s.apply (.vacuum h₁) = s.execute (.vacuum h₁) :=
      if_neg (Bool.not_eq_true _ ▸ hnoop)
    have hlater : s.apply (.vacuum (max h₁ h₂)) = s.execute (.vacuum (max h₁ h₂)) := by
      refine if_neg fun hskipped => ?_
      have hle : (compare h₁ (max h₁ h₂)).isLE = true := by
        rcases EntryVersion.max_cases h₁ h₂ with ⟨hle, hmax⟩ | ⟨hle, hmax⟩
        · rwa [hmax]
        · rw [hmax]
          exact EntryVersion.isLE_compare_iff.mpr (.inr rfl)
      rw [isNoop_vacuum_of_isLE hle hskipped] at hnoop
      cases hnoop
    rw [hfirst, hlater, ← h.execute_vacuum_twice hs]
    -- what the first vacuum leaves has no lone tombstone, so that the second one may be skipped
    unfold Store.apply
    split
    · next hsecond =>
      refine (((h.execute _).execute_eq_self_iff (hs.execute _) hsecond).mpr ?_).symm
      rw [h.hasLoneTombstone_execute_vacuum, Bool.and_false]
    · rfl

/-- Vacuums compose. In a store with any history two vacuums have the effect of one at the later
of their horizons, so the same vacuum once more has none, and their order does not matter. A node
with this store, which skips vacuums that it takes to have no effect, also ends as after the one
at the later horizon. -/
theorem vacuums_compose (history : List StoreOp) (h₁ h₂ : EntryVersion) :
    let s : Store := history.foldl execute {}
    (s.execute (.vacuum h₁)).execute (.vacuum h₂) = s.execute (.vacuum (max h₁ h₂)) ∧
      (s.execute (.vacuum h₁)).execute (.vacuum h₁) = s.execute (.vacuum h₁) ∧
      (s.execute (.vacuum h₁)).execute (.vacuum h₂) =
        (s.execute (.vacuum h₂)).execute (.vacuum h₁) ∧
      ∀ writeSeq enlistedRequests,
        let n : NodeState := ⟨s, writeSeq, enlistedRequests⟩
        (n.vacuum h₁).vacuum h₂ = n.vacuum (max h₁ h₂) ∧ (n.vacuum h₁).vacuum h₁ = n.vacuum h₁ ∧
          (n.vacuum h₁).vacuum h₂ = (n.vacuum h₂).vacuum h₁ := by
  intro s
  have h : s.WellFormed := WellFormed.empty.foldl_execute history
  have hs : s.Occupied := Occupied.empty.foldl_execute history
  refine ⟨h.execute_vacuum_twice hs h₁ h₂, ?_, ?_, fun writeSeq enlistedRequests => ?_⟩
  · rw [h.execute_vacuum_twice hs, EntryVersion.max_self]
  · rw [h.execute_vacuum_twice hs, h.execute_vacuum_twice hs, EntryVersion.max_comm]
  · have htwice : ∀ h₁ h₂, (s.apply (.vacuum h₁)).apply (.vacuum h₂) =
        s.apply (.vacuum (max h₁ h₂)) := h.apply_vacuum_twice hs
    simp only [NodeState.vacuum, NodeState.applyAll, List.foldl_cons, List.foldl_nil, htwice,
      EntryVersion.max_self, EntryVersion.max_comm h₂ h₁, and_self]

end Store

end Enlistment
