import Enlistment.Proofs.Caller.Mapping
import Enlistment.Proofs.Node.Topology

/-!
# Keys without a node

A key is mapped to a partition by a remainder of unsigned numbers, and its partition is a signed
number. A configuration accepts every positive count of partitions, so the remainder can be out of
the range of signed numbers, and then the partition is negative and has no owner. All other keys are
mapped to a partition in range, and every partition in range has an owner once a membership with
nodes was there.
-/

namespace Enlistment

/-! ## The partition of a key -/

/-- The signed number with the octets of an unsigned one. -/
theorem toInt_toInt32 (u : UInt32) :
    u.toInt32.toInt = if u.toNat < 2 ^ 31 then (u.toNat : Int) else u.toNat - 2 ^ 32 := by
  show u.toBitVec.toInt = _
  rw [BitVec.toInt_eq_toNat_cond, UInt32.toNat_toBitVec]
  split <;> split <;> omega

namespace MarshalContext

variable {ctx : MarshalContext} {key : Value}

/-- A key whose remainder a signed number can hold. -/
def Reaches (ctx : MarshalContext) (key : Value) : Prop :=
  (key.encode.checksum % ctx.partitions).toNat < 2 ^ 31

instance (ctx : MarshalContext) (key : Value) : Decidable (ctx.Reaches key) :=
  inferInstanceAs (Decidable (_ < _))

/-- A remainder is less than the count of partitions. -/
theorem remainder_lt (ctx : MarshalContext) (key : Value) :
    (key.encode.checksum % ctx.partitions).toNat < ctx.partitions.toNat := by
  have hpos := UInt32.lt_iff_toNat_lt.mp ctx.partitions_pos
  rw [UInt32.toNat_mod]
  exact Nat.mod_lt _ hpos

/-- The partition of a key is in range if a signed number can hold the remainder, and is negative if
it cannot. -/
theorem partitionOfValue_range (ctx : MarshalContext) (key : Value) :
    (ctx.Reaches key → 0 ≤ (ctx.partitionOfValue key).toInt ∧
        (ctx.partitionOfValue key).toInt < ctx.partitions.toNat) ∧
      (¬ ctx.Reaches key → (ctx.partitionOfValue key).toInt < 0) := by
  have hlt := remainder_lt ctx key
  have hhigh := (key.encode.checksum % ctx.partitions).toNat_lt
  unfold Reaches partitionOfValue partitionOf
  rw [toInt_toInt32]
  constructor <;> intro h
  · rw [if_pos h]
    omega
  · rw [if_neg h]
    omega

/-- Every key reaches a partition if there are no more than signed numbers from zero on. -/
theorem reaches_of_le (h : ctx.partitions.toNat ≤ 2 ^ 31) (key : Value) : ctx.Reaches key :=
  Nat.lt_of_lt_of_le (remainder_lt ctx key) h

/-- A cache has the partitions that it is given, unless there are none. -/
@[simp]
theorem partitions_ofCache {cacheId : Int32} {partitions : UInt32} (h : partitions ≠ 0) :
    (ofCache cacheId partitions).partitions = partitions := by
  have hpos : 0 < partitions := UInt32.pos_iff_ne_zero.mpr h
  rw [ofCache, dif_pos hpos]

end MarshalContext

/-! ## Owners of all partitions -/

/-- A change does not leave the partitions without nodes. -/
def TopologyChange.HasNodes : TopologyChange → Prop
  | .membership nodes => nodes ≠ []
  | .reassign _ _ => True

instance : (change : TopologyChange) → Decidable change.HasNodes
  | .membership nodes => inferInstanceAs (Decidable (nodes ≠ []))
  | .reassign _ _ => inferInstanceAs (Decidable True)

namespace TopologyView

variable {view : TopologyView} {nodes : List NodeId} {count : UInt32}
  {change : TopologyChange} {changes : List TopologyChange} {partition : Int32}

/-- Every partition has an owner. -/
def Full (view : TopologyView) : Prop := view.owners.length = view.partitions.toNat

/-- Sorting nodes keeps at least one. -/
theorem sortNodes_ne_nil (h : nodes ≠ []) : sortNodes nodes ≠ [] := by
  obtain ⟨node, rest, rfl⟩ := List.exists_cons_of_ne_nil h
  show insertNode node (sortNodes rest) ≠ []
  generalize sortNodes rest = sorted
  rcases sorted with - | ⟨n, sorted⟩ <;> unfold insertNode
  · exact List.cons_ne_nil _ _
  · split_ifs <;> exact List.cons_ne_nil _ _

/-- Every partition is assigned to some node as long as there is one. -/
theorem length_assign (h : nodes ≠ []) (count : UInt32) :
    (assign (sortNodes nodes) count).length = count.toNat := by
  have hsorted : (sortNodes nodes).isEmpty = false := by
    simpa using sortNodes_ne_nil h
  rw [assign, hsorted, if_neg Bool.false_ne_true, List.length_map, List.length_range]

/-- A view of some nodes has an owner for each partition. -/
theorem Full.ofNodes (h : nodes ≠ []) (count : UInt32) : (ofNodes nodes count).Full :=
  length_assign h _

/-- A membership with nodes gives every partition an owner. -/
theorem Full.membership (h : nodes ≠ []) (view : TopologyView) :
    (view.apply (.membership nodes)).Full :=
  length_assign h _

/-- A change with nodes takes the owner of no partition away. -/
theorem Full.apply (h : view.Full) (hchange : change.HasNodes) : (view.apply change).Full := by
  cases change with
  | membership nodes => exact Full.membership hchange view
  | reassign partition node =>
    show (if partition < 0 then view.owners else _).length = view.partitions.toNat
    split
    · exact h
    · rw [List.length_set]
      exact h

/-- A change leaves the count of partitions as it is. -/
theorem partitions_applyAll (view : TopologyView) (changes : List TopologyChange) :
    (view.applyAll changes).partitions = view.partitions := by
  induction changes generalizing view with
  | nil => rfl
  | cons change rest ih =>
    have hone : (view.apply change).partitions = view.partitions := by
      cases change <;> rfl
    exact (ih _).trans hone

/-- Changes with nodes leave every partition with an owner if it had one before or a membership is
among them. -/
theorem Full.applyAll (hchanges : ∀ change ∈ changes, change.HasNodes)
    (h : view.Full ∨ ∃ nodes, .membership nodes ∈ changes) : (view.applyAll changes).Full := by
  induction changes generalizing view with
  | nil => exact h.resolve_right (by simp)
  | cons change rest ih =>
    obtain ⟨hchange, hrest⟩ := List.forall_mem_cons.mp hchanges
    refine ih hrest ?_
    rcases h with h | ⟨nodes, hmem⟩
    · exact .inl (h.apply hchange)
    · rcases List.mem_cons.mp hmem with rfl | hmem
      · exact .inl (Full.membership hchange view)
      · exact .inr ⟨nodes, hmem⟩

/-- In a full view the partitions in range are those that have an owner. -/
theorem Full.isSome_primary_iff (h : view.Full) :
    (view.primary partition).isSome ↔
      0 ≤ partition.toInt ∧ partition.toInt < view.partitions.toNat := by
  have hzero : (0 : Int32).toInt = 0 := rfl
  have hfull : view.owners.length = view.partitions.toNat := h
  unfold primary
  split
  · next hneg =>
    rw [Int32.lt_iff_toInt_lt, hzero] at hneg
    constructor
    · intro hnone
      cases hnone
    · omega
  · next hlow =>
    rw [Int32.lt_iff_toInt_lt, hzero] at hlow
    rw [isSome_getElem?, hfull]
    omega

/-- The partition of a key has an owner in a full view if the key reaches a partition, and only
then. -/
theorem Full.isSome_primary_partitionOfValue (h : view.Full) {ctx : MarshalContext}
    (hcount : ctx.partitions = view.partitions) (key : Value) :
    (view.primary (ctx.partitionOfValue key)).isSome ↔ ctx.Reaches key := by
  obtain ⟨hin, hout⟩ := ctx.partitionOfValue_range key
  rw [h.isSome_primary_iff, ← hcount]
  constructor
  · intro hrange
    by_contra hfar
    have hneg := hout hfar
    omega
  · exact hin

end TopologyView

/-! ## Mapping a batch -/

section

variable {σ : Type} {id : NodeId} {config : EnlistConfig} {nodes : List NodeId}
  {changes : List TopologyChange} {loader : ClassLoader σ} {loaderId : Uuid} {e : Enlister σ}

/-- An enlister is started with a configuration that is accepted, and maps keys to as many
partitions as it is told. -/
theorem Enlister.start_ok {partitions : UInt32}
    (h : Enlister.start id config partitions loader loaderId = .ok e) :
    config.validate = .ok () ∧ (partitions ≠ 0 → e.context.partitions = partitions) := by
  unfold Enlister.start at h
  cases hvalid : config.validate with
  | error fault =>
    rw [hvalid] at h
    cases h
  | ok _ =>
    rw [hvalid] at h
    injection h with h
    subst h
    exact ⟨rfl, fun hcount => MarshalContext.partitions_ofCache hcount⟩

/-- An accepted configuration has partitions. -/
theorem EnlistConfig.partitions_ne_zero (h : config.validate = .ok ()) : config.partitions ≠ 0 := by
  intro hzero
  rw [validate, if_pos hzero] at h
  cases h

/-- Which keys can be routed. Let a configuration be accepted, and a view of its count of partitions
be changed in any way, with nodes in every membership, of which there is at least one. The partition
of a key is in range and has an owner if and only if the key reaches a partition, that is, if the
remainder of its checksum by the count fits in a signed number. Of other keys it is negative and has
no owner, and a batch fails for lack of an owner only on such a key, even if the view goes on to
change while the rows are mapped. There are none of them as long as the count is at most `2 ^ 31`.
-/
theorem routed_iff_reaches (hchanges : ∀ change ∈ changes, change.HasNodes)
    (hsome : nodes ≠ [] ∨ ∃ others, .membership others ∈ changes)
    (hstart : Enlister.start id config
      ((TopologyView.ofNodes nodes config.partitions).applyAll changes).partitions loader loaderId =
        .ok e) :
    let view := (TopologyView.ofNodes nodes config.partitions).applyAll changes
    (∀ key, e.context.Reaches key →
      0 ≤ (e.context.partitionOfValue key).toInt ∧
        (e.context.partitionOfValue key).toInt < config.partitions.toNat ∧
        (view.primary (e.context.partitionOfValue key)).isSome) ∧
      (∀ key, ¬ e.context.Reaches key →
        (e.context.partitionOfValue key).toInt < 0 ∧
          view.primary (e.context.partitionOfValue key) = none) ∧
      (∀ (views : Nat → TopologyView) rows partition,
        (∀ i, ∃ later, (∀ change ∈ later, change.HasNodes) ∧ views i = view.applyAll later) →
        (e.mapRows views rows).1 = .error (.noPrimary partition) →
        ∃ row ∈ rows, row.2.keyValue.isNull = false ∧ ¬ e.context.Reaches row.2.keyValue) ∧
      (config.partitions.toNat ≤ 2 ^ 31 → ∀ key, e.context.Reaches key) := by
  intro view
  have hfull : view.Full :=
    TopologyView.Full.applyAll hchanges (hsome.imp_left fun h => TopologyView.Full.ofNodes h _)
  obtain ⟨hvalid, hcount⟩ := Enlister.start_ok hstart
  have hpartitions : view.partitions = config.partitions := by
    show ((TopologyView.ofNodes nodes config.partitions).applyAll changes).partitions = _
    rw [TopologyView.partitions_applyAll]
    exact if_neg (EnlistConfig.partitions_ne_zero hvalid)
  have hcontext : e.context.partitions = view.partitions :=
    hcount (hpartitions.trans_ne (EnlistConfig.partitions_ne_zero hvalid))
  have howned := hfull.isSome_primary_partitionOfValue hcontext
  refine ⟨fun key hreach => ?_, fun key hfar => ?_, fun views rows partition hviews hfail => ?_,
    fun hfew => ?_⟩
  · obtain ⟨hlow, hhigh⟩ := (e.context.partitionOfValue_range key).1 hreach
    rw [hcontext, hpartitions] at hhigh
    exact ⟨hlow, hhigh, (howned key).mpr hreach⟩
  · refine ⟨(e.context.partitionOfValue_range key).2 hfar, ?_⟩
    rw [← Option.not_isSome_iff_eq_none, howned key]
    exact hfar
  · obtain ⟨row, hmem, hlost⟩ := Enlister.exists_of_mapRows_error hfail
    rcases ownerOf_error hlost with ⟨-, heq⟩ | ⟨hkey, hnone, -⟩
    · cases heq
    · refine ⟨row, hmem, hkey, fun hreach => ?_⟩
      obtain ⟨later, hlater, hview⟩ := hviews row.1
      have hsame := view.partitions_applyAll later
      have hnode := ((TopologyView.Full.applyAll hlater (.inl hfull)).isSome_primary_partitionOfValue
        (hcontext.trans hsame.symm) row.2.keyValue).mpr hreach
      rw [← hview, hnone] at hnode
      cases hnode
  · rw [← hpartitions, ← hcontext] at hfew
    exact MarshalContext.reaches_of_le hfew

/-- A view without nodes at first, and then with two of which one is left with one partition. -/
theorem routed_iff_reaches_four :
    let config : EnlistConfig := { partitions := 4 }
    let changes : List TopologyChange := [.membership [3, 1], .reassign 0 3, .reassign (-1) 2]
    let view := (TopologyView.ofNodes [] config.partitions).applyAll changes
    let e : Enlister Unit :=
      { id := 7, config, loader := .ofRegistrations [] [] [], context := .ofCache 1 4 }
    Enlister.start 7 config view.partitions (.ofRegistrations [] [] []) 0 = .ok e ∧
      ∀ key, (view.primary (e.context.partitionOfValue key)).isSome := by
  intro config changes view e
  have hstart : Enlister.start 7 config view.partitions (.ofRegistrations [] [] []) 0 = .ok e := rfl
  obtain ⟨hrouted, -, -, hfew⟩ := routed_iff_reaches
    (by decide : ∀ change ∈ changes, change.HasNodes) (.inr ⟨[3, 1], by decide⟩) hstart
  exact ⟨hstart, fun key => (hrouted key (hfew (by decide) key)).2.2⟩

/-- With the greatest count of partitions, which is accepted, a key has a negative partition, so
that no batch with it can be mapped. -/
theorem key_without_primary :
    let config : EnlistConfig := { partitions := 4294967295 }
    let view := TopologyView.ofNodes [1] config.partitions
    let ctx := MarshalContext.ofCache config.cacheId config.partitions
    let row : IndexedRow := (0, .key (.int 1))
    config.validate = .ok () ∧ view.partitions = config.partitions ∧ row.2.keyValue.isNull = false ∧
      ctx.partitionOfValue row.2.keyValue = -1646194351 ∧
      view.primary (ctx.partitionOfValue row.2.keyValue) = none ∧
      ∀ e : Enlister Unit, e.context = ctx →
        (e.mapRows (fun _ => view) [row]).1 = .error (.noPrimary (-1646194351)) := by
  intro config view ctx row
  have hpartition : ctx.partitionOfValue row.2.keyValue = -1646194351 := by decide +kernel
  have hnone : view.primary (ctx.partitionOfValue row.2.keyValue) = none := by
    rw [hpartition]
    exact if_pos (by decide)
  refine ⟨by decide, rfl, rfl, hpartition, hnone, fun e hctx => ?_⟩
  have howner : ownerOf ctx view row = .error (.noPrimary (-1646194351)) := by
    rw [← hpartition]
    simp only [ownerOf, hnone]
    rfl
  simp only [Enlister.mapRows, groupRows, hctx, howner]
  rfl

end

end Enlistment
