import Enlistment.Store.Table

/-!
# Ascending tables

The keys of a table that is built by setting keys ascend, so every entry is the one that
its key finds. Dropping entries by their values then acts on each key on its own.
-/

namespace Enlistment.Table

variable {V : Type}

/-- Every key of a table is less than the keys behind it. -/
def Ascending (t : Table V) : Prop := t.Pairwise fun a b => a.1 < b.1

/-- One of two keys that differ is less than the other. -/
theorem lt_of_ne_of_not_lt {k key : Bytes} (hne : k ≠ key) (hlt : ¬ key < k) : k < key := by
  have hle : k ≤ key := List.not_lt.mp hlt
  exact Std.lt_of_le_of_ne hle hne

/-- A key that is set is the only one that may be new. -/
theorem mem_set {t : Table V} {key : Bytes} {value : V} {entry : Bytes × V}
    (h : entry ∈ set key value t) : entry = (key, value) ∨ entry ∈ t := by
  induction t with
  | nil => exact .inl (List.mem_singleton.mp h)
  | cons first rest ih =>
    obtain ⟨k, v⟩ := first
    unfold set at h
    split at h
    · rcases List.mem_cons.mp h with h | h
      · exact .inl h
      · exact .inr (List.mem_cons_of_mem _ h)
    · split at h
      · exact List.mem_cons.mp h
      · rcases List.mem_cons.mp h with h | h
        · exact .inr (h ▸ List.mem_cons_self ..)
        · exact (ih h).imp_right (List.mem_cons_of_mem _)

/-- A table without entries ascends. -/
theorem Ascending.nil : Ascending ([] : Table V) := List.Pairwise.nil

/-- Setting a key keeps the keys ascending. -/
theorem Ascending.set {t : Table V} (h : t.Ascending) (key : Bytes) (value : V) :
    (Table.set key value t).Ascending := by
  induction t with
  | nil => exact List.pairwise_singleton _ _
  | cons first rest ih =>
    obtain ⟨k, v⟩ := first
    obtain ⟨hfirst, hrest⟩ := List.pairwise_cons.mp h
    unfold Table.set
    split
    · next hk =>
      subst hk
      exact List.pairwise_cons.mpr ⟨hfirst, hrest⟩
    · next hne =>
      split
      · next hlt =>
        refine List.pairwise_cons.mpr ⟨fun entry hentry => ?_, h⟩
        rcases List.mem_cons.mp hentry with rfl | hentry
        · exact hlt
        · exact List.lt_trans hlt (hfirst entry hentry)
      · next hnlt =>
        refine List.pairwise_cons.mpr ⟨fun entry hentry => ?_, ih hrest⟩
        rcases mem_set hentry with rfl | hentry
        · exact lt_of_ne_of_not_lt hne hnlt
        · exact hfirst entry hentry

/-- A key finds a value if the table has the two together. -/
theorem Ascending.get?_eq_some_iff {t : Table V} (h : t.Ascending) {key : Bytes} {value : V} :
    t.get? key = some value ↔ (key, value) ∈ t := by
  induction t with
  | nil => simp [get?]
  | cons first rest ih =>
    obtain ⟨k, v⟩ := first
    obtain ⟨hfirst, hrest⟩ := List.pairwise_cons.mp h
    unfold get?
    split
    · next hk =>
      subst hk
      constructor
      · intro hv
        rw [← Option.some.inj hv]
        exact List.mem_cons_self ..
      · intro hmem
        rcases List.mem_cons.mp hmem with heq | hmem
        · rw [(Prod.mk.inj heq).2]
        · exact absurd (hfirst _ hmem) (List.lt_irrefl k)
    · next hne =>
      rw [ih hrest]
      constructor
      · exact List.mem_cons_of_mem _
      · intro hmem
        rcases List.mem_cons.mp hmem with heq | hmem
        · exact absurd (Prod.mk.inj heq).1.symm hne
        · exact hmem

/-- Keys that ascend do not repeat. -/
theorem Ascending.nodup_keys {t : Table V} (h : t.Ascending) : (t.map Prod.fst).Nodup := by
  rw [List.Nodup, List.pairwise_map]
  refine h.imp fun hlt heq => ?_
  rw [heq] at hlt
  exact List.lt_irrefl _ hlt

/-- Ascending tables are equal if every key finds the same in them. -/
theorem Ascending.ext {t u : Table V} (ht : t.Ascending) (hu : u.Ascending)
    (h : ∀ key, t.get? key = u.get? key) : t = u := by
  have hdistinct : ∀ {t : Table V}, t.Ascending → t.Nodup := by
    intro t ht
    refine List.Pairwise.imp (fun hlt heq => ?_) ht
    rw [heq] at hlt
    exact List.lt_irrefl _ hlt
  refine List.Perm.eq_of_pairwise (fun a b _ _ hab hba => ?_) ht hu ?_
  · exact absurd (List.lt_trans hab hba) (List.lt_irrefl _)
  · refine (List.perm_ext_iff_of_nodup (hdistinct ht) (hdistinct hu)).mpr ?_
    rintro ⟨key, value⟩
    rw [← ht.get?_eq_some_iff, ← hu.get?_eq_some_iff, h]

/-- Keeping and changing values keeps the keys ascending. -/
theorem Ascending.filterMapValues {t : Table V} (h : t.Ascending) (f : V → Option V) :
    (t.filterMapValues f).Ascending := by
  refine List.Pairwise.filterMap _ (fun a b hlt a' ha b' hb => ?_) h
  obtain ⟨_, _, rfl⟩ := Option.map_eq_some_iff.mp ha
  obtain ⟨_, _, rfl⟩ := Option.map_eq_some_iff.mp hb
  exact hlt

/-- Values are kept and changed key by key. -/
theorem Ascending.get?_filterMapValues {t : Table V} (h : t.Ascending) (f : V → Option V)
    (key : Bytes) : (t.filterMapValues f).get? key = (t.get? key).bind f := by
  apply Option.ext
  intro value
  rw [(h.filterMapValues f).get?_eq_some_iff, Option.bind_eq_some_iff]
  constructor
  · intro hmem
    obtain ⟨entry, hentry, heq⟩ := List.mem_filterMap.mp hmem
    obtain ⟨v, hv, heq⟩ := Option.map_eq_some_iff.mp heq
    obtain ⟨rfl, rfl⟩ := Prod.mk.inj heq
    exact ⟨entry.2, h.get?_eq_some_iff.mpr hentry, hv⟩
  · rintro ⟨v, hv, hvalue⟩
    refine List.mem_filterMap.mpr ⟨(key, v), h.get?_eq_some_iff.mp hv, ?_⟩
    exact Option.map_eq_some_iff.mpr ⟨value, hvalue, rfl⟩

/-- Entries are dropped by their values key by key. -/
theorem Ascending.get?_filter {t : Table V} (h : t.Ascending) (p : V → Bool) (key : Bytes) :
    get? (t.filter fun entry => p entry.2) key = (t.get? key).filter p := by
  apply Option.ext
  intro value
  have hkept : Ascending (t.filter fun entry => p entry.2) := List.Pairwise.filter _ h
  rw [hkept.get?_eq_some_iff, Option.filter_eq_some_iff, h.get?_eq_some_iff]
  exact List.mem_filter

end Enlistment.Table
