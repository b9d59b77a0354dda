import Enlistment.Proofs.Node.Handling
import Enlistment.Proofs.Store.Versions

/-!
# Versions of a topology

Every change of a view makes its version greater, also one that moves nothing. So a version that was
read from a view names the mapping that the view had then, and a request that was mapped on it is
accepted as long as there was no change since and its partitions belong to the node, and not after.
-/

namespace Enlistment

/-! ## The order of versions -/

namespace TopologyVersion

variable {u v w : TopologyVersion}

/-- Versions are ordered by their major numbers, and those of one major number by their minor
numbers. -/
theorem lt_iff : v < w ↔ v.major < w.major ∨ v.major = w.major ∧ v.minor < w.minor := by
  show (Ord.compare v.major w.major).then (Ord.compare v.minor w.minor) = .lt ↔ _
  rw [Ordering.then_eq_lt, Std.compare_eq_lt, Std.compare_eq_iff_eq, Std.compare_eq_lt]

/-- No version is less than itself. -/
theorem lt_irrefl : ¬ v < v := by
  rw [lt_iff]
  rintro (h | ⟨-, h⟩)
  · exact Int64.lt_irrefl h
  · exact Int32.lt_irrefl h

/-- The order of versions is transitive. -/
theorem lt_trans (huv : u < v) (hvw : v < w) : u < w := by
  rw [lt_iff] at huv hvw ⊢
  rcases huv with huv | ⟨heq, huv⟩ <;> rcases hvw with hvw | ⟨heq', hvw⟩
  · exact .inl (Int64.lt_trans huv hvw)
  · exact .inl (heq' ▸ huv)
  · exact .inl (heq ▸ hvw)
  · exact .inr ⟨heq.trans heq', Int32.lt_trans huv hvw⟩

/-- A version is at most itself. -/
theorem le_refl : v ≤ v := by
  show ((Ord.compare v.major v.major).then (Ord.compare v.minor v.minor)).isLE = true
  rw [Std.compare_eq_iff_eq.mpr rfl, Std.compare_eq_iff_eq.mpr rfl]
  rfl

/-- A version that is less is at most the other one. -/
theorem le_of_lt (h : v < w) : v ≤ w := by
  have hcompare : Ord.compare v w = .lt := h
  show (Ord.compare v w).isLE = true
  rw [hcompare]
  rfl

/-- A change can count up the number that it counts up. -/
def HasRoom (v : TopologyVersion) : TopologyChange → Prop
  | .membership _ => v.major.toInt + 1 < 2 ^ 63
  | .reassign _ _ => v.minor.toInt + 1 < 2 ^ 31

instance : (v : TopologyVersion) → (change : TopologyChange) → Decidable (v.HasRoom change)
  | v, .membership _ => inferInstanceAs (Decidable (v.major.toInt + 1 < 2 ^ 63))
  | v, .reassign _ _ => inferInstanceAs (Decidable (v.minor.toInt + 1 < 2 ^ 31))

/-- The next major version is greater, although its minor number starts anew. -/
theorem lt_nextMajor (h : v.major.toInt + 1 < 2 ^ 63) : v < v.nextMajor := by
  have hcount : (v.major + 1).toInt = v.major.toInt + 1 := toInt_add_one h
  refine lt_iff.mpr (.inl (Int64.lt_iff_toInt_lt.mpr ?_))
  rw [nextMajor, hcount]
  omega

/-- The next minor version is greater. -/
theorem lt_nextMinor (h : v.minor.toInt + 1 < 2 ^ 31) : v < v.nextMinor := by
  have hcount : (v.minor + 1).toInt = v.minor.toInt + 1 := by
    have hlow := v.minor.le_toInt
    have hone : (1 : Int32).toInt = 1 := rfl
    rw [Int32.toInt_add, hone, Int.bmod_eq_of_le] <;> omega
  refine lt_iff.mpr (.inr ⟨rfl, Int32.lt_iff_toInt_lt.mpr ?_⟩)
  rw [nextMinor, hcount]
  omega

end TopologyVersion

/-! ## Changes -/

namespace TopologyView

/-- The view after some changes, one after the other. -/
def applyAll (view : TopologyView) (changes : List TopologyChange) : TopologyView :=
  changes.foldl apply view

/-- No change overflows the number that it counts up. -/
def HasRoom : TopologyView → List TopologyChange → Prop
  | _, [] => True
  | view, change :: rest => view.version.HasRoom change ∧ HasRoom (view.apply change) rest

instance decidableHasRoom : (view : TopologyView) → (changes : List TopologyChange) →
    Decidable (view.HasRoom changes)
  | _, [] => inferInstanceAs (Decidable True)
  | view, change :: rest =>
    have := decidableHasRoom (view.apply change) rest
    inferInstanceAs (Decidable (view.version.HasRoom change ∧ HasRoom (view.apply change) rest))

/-- A view has at most as many owners as partitions. -/
def Sized (view : TopologyView) : Prop := view.owners.length ≤ view.partitions.toNat

variable {view : TopologyView} {change : TopologyChange}
  {changes before after : List TopologyChange}

/-- Changes are applied one part after the other. -/
theorem applyAll_append (view : TopologyView) (before after : List TopologyChange) :
    view.applyAll (before ++ after) = (view.applyAll before).applyAll after :=
  List.foldl_append

/-- Changes that do not overflow do not after some of them. -/
theorem HasRoom.append (h : view.HasRoom (before ++ after)) :
    view.HasRoom before ∧ (view.applyAll before).HasRoom after := by
  induction before generalizing view with
  | nil => exact ⟨trivial, h⟩
  | cons change rest ih =>
    obtain ⟨hchange, hrest⟩ := h
    obtain ⟨hbefore, hafter⟩ := ih hrest
    exact ⟨⟨hchange, hbefore⟩, hafter⟩

/-- Every change makes the version greater. -/
theorem version_lt_apply (h : view.version.HasRoom change) :
    view.version < (view.apply change).version := by
  cases change with
  | membership nodes => exact TopologyVersion.lt_nextMajor h
  | reassign partition node => exact TopologyVersion.lt_nextMinor h

/-- Some changes make the version greater. -/
theorem version_lt_applyAll (h : view.HasRoom changes) (hsome : changes ≠ []) :
    view.version < (view.applyAll changes).version := by
  induction changes generalizing view with
  | nil => exact absurd rfl hsome
  | cons change rest ih =>
    obtain ⟨hchange, hrest⟩ := h
    have hstep := version_lt_apply hchange
    by_cases hlast : rest = []
    · subst hlast
      exact hstep
    · exact TopologyVersion.lt_trans hstep (ih hrest hlast)

/-- No change makes the version less. -/
theorem version_le_applyAll (h : view.HasRoom changes) :
    view.version ≤ (view.applyAll changes).version := by
  by_cases hsome : changes = []
  · subst hsome
    exact TopologyVersion.le_refl
  · exact TopologyVersion.le_of_lt (version_lt_applyAll h hsome)

/-! ## Partitions in range -/

/-- No more partitions are assigned than there are. -/
theorem length_assign_le (nodes : List NodeId) (partitions : UInt32) :
    (assign nodes partitions).length ≤ partitions.toNat := by
  unfold assign
  split
  · exact Nat.zero_le _
  · rw [List.length_map, List.length_range]

/-- A view of some nodes has no more owners than partitions. -/
theorem Sized.ofNodes (nodes : List NodeId) (count : UInt32) : (ofNodes nodes count).Sized :=
  length_assign_le _ _

/-- A change keeps a view sized. -/
theorem Sized.apply (h : view.Sized) (change : TopologyChange) : (view.apply change).Sized := by
  cases change with
  | membership nodes => exact length_assign_le _ _
  | reassign partition node =>
    show (if partition < 0 then view.owners else _).length ≤ view.partitions.toNat
    split
    · exact h
    · rw [List.length_set]
      exact h

/-- Changes keep a view sized. -/
theorem Sized.applyAll (h : view.Sized) (changes : List TopologyChange) :
    (view.applyAll changes).Sized := by
  induction changes generalizing view with
  | nil => exact h
  | cons change rest ih => exact ih (h.apply change)

/-- A partition that has an owner is in range. -/
theorem Sized.in_range (h : view.Sized) {partition : Int32} {node : NodeId}
    (howner : view.primary partition = some node) :
    0 ≤ partition.toInt ∧ partition.toInt < view.partitions.toNat := by
  unfold primary at howner
  split at howner
  · cases howner
  · next hlow =>
    rw [Int32.lt_iff_toInt_lt] at hlow
    have hzero : (0 : Int32).toInt = 0 := rfl
    obtain ⟨hindex, -⟩ := List.getElem?_eq_some_iff.mp howner
    have hsize : view.owners.length ≤ view.partitions.toNat := h
    omega

/-! ## Validated runs -/

section

variable {ρ α : Type} {requested : TopologyVersion} {partitions : List Int32} {node : NodeId}

/-- What is run is run if the version is current and the node owns all partitions. -/
theorem withValidated_accepted (hversion : view.version = requested)
    (howned : ∀ p ∈ partitions, view.primary p = some node) (run : ρ → α × ρ) (state : ρ) :
    view.withValidated requested partitions node run state =
      (.ok (run state).1, (run state).2) := by
  simp only [withValidated, validate_ok_iff.mpr ⟨hversion, howned⟩]

/-- Nothing is run if another version is current or the node does not own one of the partitions. -/
theorem withValidated_refused
    (h : ¬ (view.version = requested ∧ ∀ p ∈ partitions, view.primary p = some node))
    (run : ρ → α × ρ) (state : ρ) :
    view.withValidated requested partitions node run state =
      (.error (.topologyMismatch requested view.version), state) := by
  have hrefused : view.validate requested partitions node =
      .error (.topologyMismatch requested view.version) := by
    cases hvalid : view.validate requested partitions node with
    | ok _ => exact absurd (validate_ok_iff.mp hvalid) h
    | error e =>
      unfold validate at hvalid
      split at hvalid
      · cases hvalid
      · exact hvalid.symm
  simp only [withValidated, hrefused]

/-- A version pins the mapping. On a view that is changed in any way, as long as no number
overflows, every change makes the version greater. Let a version be read from the view, and let
something be run for a node that is to own some partitions on that version, now or later. It is run
if there was no change in between and all the partitions are in range and belong to the node in the
mapping at the reading. In all other cases it is not, and the mismatch that is reported names the
version at the time of the run, which is at least the one that was read. -/
theorem version_pins_mapping {nodes : List NodeId} {count : UInt32}
    (hroom : (ofNodes nodes count).HasRoom changes) :
    (∀ before change after, changes = before ++ change :: after →
      ((ofNodes nodes count).applyAll before).version <
        ((ofNodes nodes count).applyAll (before ++ [change])).version) ∧
      ∀ before after, changes = before ++ after →
        ∀ (partitions : List Int32) (node : NodeId) (run : ρ → α × ρ) (state : ρ),
          let read := (ofNodes nodes count).applyAll before
          let current := (ofNodes nodes count).applyAll changes
          let valid := after = [] ∧ ∀ p ∈ partitions, 0 ≤ p.toInt ∧
            p.toInt < read.partitions.toNat ∧ read.primary p = some node
          let result := current.withValidated read.version partitions node run state
          (valid → result = (.ok (run state).1, (run state).2)) ∧
            (¬ valid → result =
              (.error (.topologyMismatch read.version current.version), state)) ∧
            read.version ≤ current.version := by
  constructor
  · intro before change after hchanges
    rw [hchanges] at hroom
    obtain ⟨hchange, -⟩ := hroom.append.2
    rw [applyAll_append]
    exact version_lt_apply hchange
  · intro before after hchanges partitions node run state read current valid result
    rw [hchanges] at hroom
    have hafter : read.HasRoom after := hroom.append.2
    have hcurrent : current = read.applyAll after := by
      show (ofNodes nodes count).applyAll changes = _
      rw [hchanges, applyAll_append]
    refine ⟨?_, fun hinvalid => ?_, ?_⟩
    · rintro ⟨rfl, hpartitions⟩
      have hsame : current = read := hcurrent
      have howned : ∀ p ∈ partitions, current.primary p = some node := fun p hp => by
        rw [hsame]
        exact (hpartitions p hp).2.2
      exact withValidated_accepted (by rw [hsame]) howned run state
    · refine withValidated_refused (fun hvalid => hinvalid ?_) run state
      obtain ⟨hversion, howned⟩ := hvalid
      -- a version that is still current has seen no change
      have hnone : after = [] := Decidable.byContradiction fun hsome => by
        have hlt := version_lt_applyAll hafter hsome
        rw [← hcurrent, hversion] at hlt
        exact TopologyVersion.lt_irrefl hlt
      have hsame : current = read := by rw [hcurrent, hnone]; rfl
      refine ⟨hnone, fun p hp => ?_⟩
      have hprimary : read.primary p = some node := hsame ▸ howned p hp
      obtain ⟨hlow, hhigh⟩ := ((Sized.ofNodes nodes count).applyAll before).in_range hprimary
      exact ⟨hlow, hhigh, hprimary⟩
    · rw [hcurrent]
      exact version_le_applyAll hafter

/-- A version that is read after a partition moved to another node lets this node run something
there. Once all nodes have left it does not, nor after a move of a partition out of range. -/
theorem version_pins_mapping_after_move :
    let moved := (ofNodes [1, 2] 4).reassign 0 2
    let later := (moved.applyMembership []).reassign 9 1
    let count : Nat → Nat × Nat := fun n => (n, n + 1)
    (ofNodes [1, 2] 4).version < moved.version ∧
      moved.withValidated moved.version [0, 1] 2 count 7 = (.ok 7, 8) ∧
      later.withValidated moved.version [0, 1] 2 count 7 =
        (.error (.topologyMismatch ⟨1, 1⟩ ⟨2, 1⟩), 7) ∧
      moved.version ≤ later.version := by
  intro moved later count
  have hmove : (ofNodes [1, 2] 4).HasRoom [.reassign 0 2] := by decide
  have hall : (ofNodes [1, 2] 4).HasRoom [.reassign 0 2, .membership [], .reassign 9 1] := by
    decide
  obtain ⟨hincrease, hnow⟩ := version_pins_mapping (ρ := Nat) (α := Nat) hmove
  obtain ⟨-, hlater⟩ := version_pins_mapping (ρ := Nat) (α := Nat) hall
  obtain ⟨hrun, -, -⟩ := hnow [.reassign 0 2] [] rfl [0, 1] 2 count 7
  obtain ⟨-, hstale, hle⟩ :=
    hlater [.reassign 0 2] [.membership [], .reassign 9 1] rfl [0, 1] 2 count 7
  have hchanged : ([.membership [], .reassign 9 1] : List TopologyChange) ≠ [] := by decide
  exact ⟨hincrease [] (.reassign 0 2) [] rfl,
    hrun ⟨rfl, List.forall_mem_cons.mpr ⟨by decide, List.forall_mem_singleton.mpr (by decide)⟩⟩,
    hstale fun hvalid => hchanged hvalid.1, hle⟩

end

end TopologyView

/-- A node commits a batch by a run that its view validates, so a batch is committed if there was no
change since its request was mapped, and the state of the node is left alone otherwise. -/
theorem Node.applyRows_eq {σ : Type} [HasTopology σ] (n : Node σ) (req : EnlistRequest σ)
    (op : Operation) (rows : List (EnlistedRow σ)) (state : σ) :
    n.applyRows req op rows state =
      match n.state.stageRows (req.applyContext op) rows state with
      | (.error e, state) => (.error e, n, state)
      | (.ok staged, state) =>
        let r := (HasTopology.topology state).withValidated req.topology
          (rows.map fun row => row.keyObject.partition) n.id
          (fun s : NodeState => (staged.outcome, s.commit staged.batch)) n.state
        (r.1, { n with state := r.2 }, state) := by
  unfold applyRows EnlistRequest.applyContext TopologyView.withValidated
  dsimp only
  rcases n.state.stageRows _ rows state with ⟨e | staged, next⟩
  · rfl
  · cases hvalid : (HasTopology.topology next).validate req.topology
        (rows.map fun row => row.keyObject.partition) n.id <;> simp only [hvalid]

end Enlistment
