import Enlistment.Proofs.Node.Isolation
import Enlistment.Proofs.Store.Vacuum

/-!
# Vacuuming at a cleanup version

The cleanup version of a snapshot lies below all transactions that are unfinished when it is
issued, so everything written at or below it is final. It is visible to snapshots issued from
then on, and a vacuum at this version takes nothing away from them. An earlier snapshot may
still exclude a transaction at or below the cleanup version that has finished since. What such
a transaction has written hides older versions from the vacuum, but not from the snapshot.
-/

namespace Enlistment

variable {σ : Type}

/-! ## Cleanup versions -/

/-- A positive counter counts back. -/
theorem toInt_sub_one {counter : Int64} (h : 0 < counter) :
    (counter - 1).toInt = counter.toInt - 1 := by
  have hpos : 0 < counter.toInt := Int64.lt_iff_toInt_lt.mp h
  have hhigh := counter.toInt_lt
  have hone : (1 : Int64).toInt = 1 := rfl
  rw [Int64.toInt_sub, hone, Int.bmod_eq_of_le] <;> omega

namespace Coordinator

/-- A transaction that is added to an ascending list keeps it ascending. -/
theorem ascending_insertActive {n : Int64} {active : List Int64}
    (h : active.Pairwise fun a b => a < b) :
    (insertActive n active).Pairwise fun a b => a < b := by
  induction active with
  | nil => exact List.pairwise_singleton _ _
  | cons first rest ih =>
    obtain ⟨hfirst, hrest⟩ := List.pairwise_cons.mp h
    unfold insertActive
    split
    · next hlt =>
      refine List.pairwise_cons.mpr ⟨fun m hm => ?_, h⟩
      rcases List.mem_cons.mp hm with rfl | hm
      · exact hlt
      · exact Int64.lt_trans hlt (hfirst m hm)
    · split
      · exact h
      · next hle hne =>
        have hlt : first < n := by
          rw [Int64.lt_iff_toInt_lt] at hle ⊢
          have hne' : n.toInt ≠ first.toInt := fun heq => hne (Int64.toInt_inj.mp heq)
          omega
        refine List.pairwise_cons.mpr ⟨fun m hm => ?_, ih hrest⟩
        rcases mem_insertActive hm with rfl | hm
        · exact hlt
        · exact hfirst m hm

/-- A coordinator that has issued some snapshots: its unfinished transactions lie above all
their cleanup versions, and so do those that were unfinished when a later one was issued. -/
structure Tracks (c : Coordinator) (issued : List Snapshot) : Prop where
  counter_nonneg : 0 ≤ c.counter
  ascending : c.active.Pairwise fun a b => a < b
  active_pos : ∀ n ∈ c.active, 0 < n
  active_le : ∀ n ∈ c.active, n ≤ c.counter
  counter_le : ∀ s ∈ issued, s.counter ≤ c.counter
  cleanup_lt : ∀ d ∈ issued, d.cleanup < d.counter
  cleanup_lt_active : ∀ d ∈ issued, ∀ n ∈ c.active, d.cleanup < n
  cleanup_lt_listed : ∀ d ∈ issued, ∀ s ∈ issued, d.counter ≤ s.counter →
    ∀ n ∈ s.active, d.cleanup < n

/-- A coordinator that has issued nothing. -/
theorem Tracks.initial (version : Int64) : Tracks { version } [] where
  counter_nonneg := Int64.le_refl 0
  ascending := List.Pairwise.nil
  active_pos n hn := by cases hn
  active_le n hn := by cases hn
  counter_le s hs := by cases hs
  cleanup_lt d hd := by cases hd
  cleanup_lt_active d hd := by cases hd
  cleanup_lt_listed d hd := by cases hd

variable {c : Coordinator} {issued : List Snapshot}

/-- The cleanup version of a new snapshot lies below all unfinished transactions. -/
theorem Tracks.cleanup_lt_of_mem_active (h : c.Tracks issued) {n : Int64} (hn : n ∈ c.active) :
    c.requestSnapshot.1.cleanup < n := by
  unfold requestSnapshot
  cases hactive : c.active with
  | nil => rw [hactive] at hn; cases hn
  | cons oldest rest =>
    have hpos := h.active_pos oldest (by rw [hactive]; exact List.mem_cons_self)
    have hback := toInt_sub_one hpos
    have hascending := h.ascending
    rw [hactive] at hn hascending
    have hle : oldest ≤ n := by
      rcases List.mem_cons.mp hn with rfl | hn
      · exact Int64.le_refl _
      · exact Int64.le_of_lt ((List.pairwise_cons.mp hascending).1 n hn)
    rw [Int64.le_iff_toInt_le] at hle
    rw [Int64.lt_iff_toInt_lt]
    show (oldest - 1).toInt < n.toInt
    omega

/-- The cleanup version of a new snapshot lies below its own transaction. -/
theorem Tracks.cleanup_lt_counter (h : c.Tracks issued) (hroom : c.counter.toInt + 1 < 2 ^ 63) :
    c.requestSnapshot.1.cleanup < c.counter + 1 := by
  have hnext := toInt_add_one hroom
  have hnonneg : 0 ≤ c.counter.toInt := Int64.le_iff_toInt_le.mp h.counter_nonneg
  cases hactive : c.active with
  | nil =>
    have hpos : 0 < c.counter + 1 := by
      rw [Int64.lt_iff_toInt_lt, hnext]
      show (0 : Int) < _
      omega
    have hback := toInt_sub_one hpos
    simp only [requestSnapshot, hactive]
    rw [Int64.lt_iff_toInt_lt]
    omega
  | cons oldest rest =>
    have hmem : oldest ∈ c.active := by rw [hactive]; exact List.mem_cons_self
    have hbelow := h.cleanup_lt_of_mem_active hmem
    have hle := h.active_le oldest hmem
    rw [Int64.lt_iff_toInt_lt] at hbelow ⊢
    rw [Int64.le_iff_toInt_le] at hle
    omega

/-- A coordinator keeps track of a transaction that starts. -/
theorem Tracks.start (h : c.Tracks issued) (hroom : c.counter.toInt + 1 < 2 ^ 63) :
    c.requestSnapshot.2.Tracks (issued ++ [c.requestSnapshot.1]) := by
  have hnext : c.counter < c.counter + 1 := by
    rw [Int64.lt_iff_toInt_lt, toInt_add_one hroom]
    omega
  have hnonneg := h.counter_nonneg
  have hactive : ∀ n ∈ c.requestSnapshot.2.active, n = c.counter + 1 ∨ n ∈ c.active :=
    fun n hn => mem_insertActive hn
  have hissued : ∀ s ∈ issued ++ [c.requestSnapshot.1],
      s ∈ issued ∨ s = c.requestSnapshot.1 := by
    intro s hs
    rcases List.mem_append.mp hs with hs | hs
    · exact .inl hs
    · exact .inr (List.mem_singleton.mp hs)
  have hold : ∀ s ∈ issued, s.counter < c.counter + 1 :=
    fun s hs => Int64.lt_of_le_of_lt (h.counter_le s hs) hnext
  have hpos : 0 < c.counter + 1 := Int64.lt_of_le_of_lt hnonneg hnext
  refine ⟨Int64.le_of_lt hpos, ascending_insertActive h.ascending, fun n hn => ?_,
    fun n hn => ?_, fun s hs => ?_, fun d hd => ?_, fun d hd n hn => ?_,
    fun d hd s hs hle n hn => ?_⟩
  · rcases hactive n hn with rfl | hn
    · exact hpos
    · exact h.active_pos n hn
  · rcases hactive n hn with rfl | hn
    · exact Int64.le_refl _
    · exact Int64.le_of_lt (Int64.lt_of_le_of_lt (h.active_le n hn) hnext)
  · rcases hissued s hs with hs | rfl
    · exact Int64.le_of_lt (hold s hs)
    · exact Int64.le_refl _
  · rcases hissued d hd with hd | rfl
    · exact h.cleanup_lt d hd
    · exact h.cleanup_lt_counter hroom
  · rcases hissued d hd with hd | rfl <;> rcases hactive n hn with rfl | hn
    · exact Int64.lt_trans (h.cleanup_lt d hd) (hold d hd)
    · exact h.cleanup_lt_active d hd n hn
    · exact h.cleanup_lt_counter hroom
    · exact h.cleanup_lt_of_mem_active hn
  · rcases hissued d hd with hd | rfl <;> rcases hissued s hs with hs | rfl
    · exact h.cleanup_lt_listed d hd s hs hle n hn
    · exact h.cleanup_lt_active d hd n hn
    · -- an earlier snapshot does not have a greater number than a new one
      exact absurd (Int64.lt_of_le_of_lt hle (hold s hs)) Int64.lt_irrefl
    · exact h.cleanup_lt_of_mem_active hn

/-- A coordinator keeps track of a transaction that finishes. -/
theorem Tracks.finish (h : c.Tracks issued) (counter : Int64) :
    (c.finish counter).2.Tracks issued := by
  have hactive : ∀ n ∈ (c.finish counter).2.active, n ∈ c.active :=
    fun n hn => List.mem_of_mem_erase hn
  exact ⟨h.counter_nonneg, h.ascending.sublist List.erase_sublist,
    fun n hn => h.active_pos n (hactive n hn), fun n hn => h.active_le n (hactive n hn),
    h.counter_le, h.cleanup_lt, fun d hd n hn => h.cleanup_lt_active d hd n (hactive n hn),
    h.cleanup_lt_listed⟩

end Coordinator

/-- A snapshot sees everything at or below a counter that lies below its own transaction and
below all those it excludes. -/
theorem Snapshot.sees_of_isLE {s : Snapshot} {cleanup : Int64} (hown : cleanup < s.counter)
    (hlisted : ∀ n ∈ s.active, cleanup < n) {v : EntryVersion}
    (hv : (compare v ⟨s.coordinator, cleanup⟩).isLE = true) : s.sees v = true := by
  have hle : v < ⟨s.coordinator, cleanup⟩ ∨ v = ⟨s.coordinator, cleanup⟩ :=
    EntryVersion.isLE_compare_iff.mp hv
  have hordered : v.coordinator < s.coordinator ∨
      v.coordinator = s.coordinator ∧ v.counter ≤ cleanup := by
    rcases hle with hlt | rfl
    · exact (EntryVersion.lt_iff.mp hlt).imp_right fun h => ⟨h.1, Int64.le_of_lt h.2⟩
    · exact .inr ⟨rfl, Int64.le_refl _⟩
  unfold sees
  rcases hordered with hlt | ⟨hsame, hcounter⟩
  · rw [Std.compare_eq_lt.mpr hlt]
  · have hbelow : v.counter < s.counter := Int64.lt_of_le_of_lt hcounter hown
    have hfinished : v.counter ∉ s.active := fun hmem =>
      Int64.lt_irrefl (Int64.lt_of_le_of_lt hcounter (hlisted _ hmem))
    rw [Std.compare_eq_iff_eq.mpr hsame]
    simp [hbelow, hfinished]

namespace Transactions

variable [HasTopology σ]

/-- The coordinator of transactions that keep to the rules keeps track of them. -/
theorem tracks_performAll {t : Transactions σ} (h : t.coordinator.Tracks t.issued)
    {events : List (Event σ)} (horderly : t.Orderly events) :
    (t.performAll events).coordinator.Tracks (t.performAll events).issued := by
  induction events generalizing t with
  | nil => exact h
  | cons event rest ih =>
    have hstep : (t.perform event).coordinator.Tracks (t.perform event).issued := by
      cases event with
      | start => exact h.start horderly.1
      | finish counter => exact h.finish counter
      | request req state => exact h
      | release lock => exact h
    exact ih hstep horderly.2

/-- Vacuuming at a cleanup version. A node has been asked anything so far, and from then on
gets requests of transactions of one coordinator. A vacuum at the cleanup version of any
snapshot that was issued takes nothing away from the snapshot of an unfinished transaction if
this one was not issued earlier, or if it excludes no transaction at or below that version. -/
theorem visible_vacuum_at_cleanup {first n : Node σ} {actions : List (NodeAction σ)}
    (hfirst : first.state = {}) (hn : first.performAll actions = n)
    (hmode : n.config.mvccEnabled = true) (version : Int64) {events : List (Event σ)}
    {t : Transactions σ} (ht : performAll { coordinator := { version }, node := n } events = t)
    (horderly : Orderly { coordinator := { version }, node := n } events) {d s : Snapshot}
    (hd : d ∈ t.issued) (hs : s ∈ t.issued) (hunfinished : s.counter ∈ t.coordinator.active)
    (hexcluded : d.counter ≤ s.counter ∨ ∀ other ∈ s.active, d.cleanup < other) (key : Bytes) :
    (t.node.vacuum ⟨t.coordinator.version, d.cleanup⟩).state.store.visible key (some s) =
      t.node.state.store.visible key (some s) := by
  have hstore : n.state.store.WellFormed := hn ▸ Node.wellFormed_performAll hfirst actions
  have hconsistent : t.Consistent :=
    ht ▸ (Consistent.initial version hmode hstore).performAll horderly
  have htracks : t.coordinator.Tracks t.issued :=
    ht ▸ tracks_performAll (Coordinator.Tracks.initial version) horderly
  have hlisted : ∀ other ∈ s.active, d.cleanup < other :=
    hexcluded.elim (htracks.cleanup_lt_listed d hd s hs) id
  have hown : d.cleanup < s.counter := htracks.cleanup_lt_active d hd _ hunfinished
  refine hconsistent.store.visible_apply_vacuum fun v hv => ?_
  have hbelow := (List.mem_filter.mp (List.mem_of_getLast? hv)).2
  rw [← hconsistent.version s hs] at hbelow
  exact Snapshot.sees_of_isLE hown hlisted hbelow

/-- The second of two finished transactions has replaced the value of the first one. The vacuum
drops the old value, and the snapshot it was made for reads the new one before and after. -/
theorem visible_vacuum_of_finished :
    let view := TopologyView.ofNodes [1] 1
    let n : Node TopologyView :=
      { id := 1, config := { mvccEnabled := true }, loader := .ofRegistrations [] [] []
        context := .ofCache 1 1 }
    let upsert (s : Snapshot) (v : Value) : EnlistRequest TopologyView :=
      { base := { cacheId := 1 }, topology := ⟨1, 0⟩, lock := ⟨1, 1, 1⟩, snapshot := some s
        op := some .upsert
        wire := some (.entries [.ofKey n.context (.int 3)] [(ValueObject.ofValue v).marshal]) }
    let events : List (Event TopologyView) :=
      [.start, .request (upsert ⟨1, 1, 0, 0, []⟩ (.int 4)) view, .finish 1, .start,
        .request (upsert ⟨1, 2, 0, 1, []⟩ (.int 5)) view, .finish 2, .start]
    let t := performAll { coordinator := { version := 1 }, node := n } events
    let s : Snapshot := ⟨1, 3, 0, 2, []⟩
    let vacuumed := t.node.vacuum ⟨t.coordinator.version, s.cleanup⟩
    vacuumed.state.store.visible (Value.int 3).encode (some s) =
        t.node.state.store.visible (Value.int 3).encode (some s) ∧
      t.node.state.store.visible (Value.int 3).encode (some s) = some (Value.int 5).encode ∧
      (vacuumed.state.store.versions (Value.int 3).encode).length = 1 := by
  intro view n upsert events t s vacuumed
  have horderly : Orderly { coordinator := { version := 1 }, node := n } events := by
    decide +kernel
  have hs : s ∈ t.issued := by decide +kernel
  have hunfinished : s.counter ∈ t.coordinator.active := by decide +kernel
  have hn : n.performAll [] = n := rfl
  have ht : performAll { coordinator := { version := 1 }, node := n } events = t := rfl
  have hkept := visible_vacuum_at_cleanup rfl hn rfl 1 ht horderly hs hs hunfinished
    (.inl (Int64.le_refl _)) (Value.int 3).encode
  exact ⟨hkept, by decide +kernel, by decide +kernel⟩

/-- A vacuum at a cleanup version can take a value away from an earlier snapshot. The second
transaction writes and finishes while the third one, which excludes it, is unfinished. The
cleanup version of the fourth one is that of the second, so a vacuum drops the value of the first
one, which the third one reads. -/
theorem vacuum_at_cleanup_takes_value_away :
    let view := TopologyView.ofNodes [1] 1
    let n : Node TopologyView :=
      { id := 1, config := { mvccEnabled := true }, loader := .ofRegistrations [] [] []
        context := .ofCache 1 1 }
    let upsert (s : Snapshot) (v : Value) : EnlistRequest TopologyView :=
      { base := { cacheId := 1 }, topology := ⟨1, 0⟩, lock := ⟨1, 1, 1⟩, snapshot := some s
        op := some .upsert
        wire := some (.entries [.ofKey n.context (.int 3)] [(ValueObject.ofValue v).marshal]) }
    let events : List (Event TopologyView) :=
      [.start, .request (upsert ⟨1, 1, 0, 0, []⟩ (.int 4)) view, .finish 1, .start, .start,
        .request (upsert ⟨1, 2, 0, 1, []⟩ (.int 5)) view, .finish 2, .start]
    let t := performAll { coordinator := { version := 1 }, node := n } events
    let s : Snapshot := ⟨1, 3, 0, 1, [2]⟩
    let d : Snapshot := ⟨1, 4, 0, 2, [3]⟩
    let vacuumed := t.node.vacuum ⟨t.coordinator.version, d.cleanup⟩
    Orderly { coordinator := { version := 1 }, node := n } events ∧ d ∈ t.issued ∧ s ∈ t.issued ∧
      s.counter ∈ t.coordinator.active ∧
      t.node.state.store.visible (Value.int 3).encode (some s) = some (Value.int 4).encode ∧
      vacuumed.state.store.visible (Value.int 3).encode (some s) = none := by
  decide +kernel

end Transactions

end Enlistment
