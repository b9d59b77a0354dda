import Enlistment.Proofs.Caller.Rounds
import Enlistment.Proofs.Caller.Shares
import Enlistment.Proofs.Node.Sharing
import Mathlib.Data.List.Nodup

/-!
# Merging shares

The result of a call is put together from shares whose rows are numbered anew. It holds the value
that each row returns in the slot of the row, the number of rows that write, and the positions of
the rows that fail, in their order. So it depends on the effect of each row alone, and neither on
the nodes that have carried out the rows nor on the order of the shares.
-/

namespace Enlistment

variable {σ : Type}

namespace EnlistResult

/-- Results that a caller can tell apart by the wording of failures only. -/
structure Agrees (a b : EnlistResult) : Prop where
  previous : a.previous = b.previous
  updated : a.updated = b.updated
  failed : a.failures.map RowFailure.index = b.failures.map RowFailure.index

/-- A result to which some rows with given effects were added. -/
structure Collects (needResult : Bool) (effect : IndexedRow → RowEffect) (rows : List IndexedRow)
    (before after : EnlistResult) : Prop where
  previous : after.previous = if needResult then
      rows.foldl (fun slots row => slots.set row.1 (effect row).returned.relayed.value)
        before.previous
    else before.previous
  updated : after.updated = before.updated +
    UInt64.ofNat (rows.countP fun row => (effect row).written.isSome)
  failed : after.failures.map RowFailure.index = before.failures.map RowFailure.index ++
    (rows.filter fun row => (effect row).failure.isSome).map fun row =>
      (RowFailure.ofIndex row.1 "").index

variable {needResult : Bool} {effect : IndexedRow → RowEffect} {rows : List IndexedRow}

/-- Nothing was added to a result. -/
theorem Collects.refl (needResult : Bool) (effect : IndexedRow → RowEffect)
    (result : EnlistResult) : Collects needResult effect [] result result where
  previous := by simp
  updated := by simp
  failed := by simp

/-- Rows that are added after others. -/
theorem Collects.append {more : List IndexedRow} {before middle after : EnlistResult}
    (h : Collects needResult effect rows before middle)
    (h' : Collects needResult effect more middle after) :
    Collects needResult effect (rows ++ more) before after where
  previous := by
    rw [h'.previous, h.previous, List.foldl_append]
    cases needResult <;> rfl
  updated := by
    rw [h'.updated, h.updated, List.countP_append, UInt64.ofNat_add, UInt64.add_assoc]
  failed := by
    rw [h'.failed, h.failed, List.filter_append, List.map_append, List.append_assoc]

/-! ## One share -/

/-- Filling the slots of rows with a value for each of them. -/
theorem fillSlots_map (rows : List IndexedRow) (value : IndexedRow → Option Value)
    (slots : List (Option Value)) :
    fillSlots rows (rows.map value) slots =
      rows.foldl (fun slots row => slots.set row.1 (value row)) slots := by
  unfold fillSlots
  have hzip : rows.zip (rows.map value) = rows.map fun row => (row, value row) := by
    simpa using List.zip_map' (f := id) (g := value) (l := rows)
  rw [hzip, List.foldl_map]

/-- A failure at a position of a part is one of the row at this position, as its caller knows the
row. -/
theorem callerFailure_ofIndex {rows : List IndexedRow} (hlength : rows.length ≤ Wire.maxWireLength)
    {index : Nat} {row : IndexedRow} (hrow : rows[index]? = some row) (reason : String) :
    callerFailure rows (.ofIndex index reason) = .ofIndex row.1 reason := by
  have hlt : index < 0x80000000 :=
    Nat.lt_of_lt_of_le (List.getElem?_eq_some_iff.mp hrow).1 (Nat.le_succ_of_le hlength)
  have hposition : (Int32.ofNat index).toInt = index := Int32.toInt_ofNat_of_lt hlt
  have hnonneg : ¬ Int32.ofNat index < 0 := by
    rw [Int32.lt_iff_toInt_lt, hposition]
    exact Int.not_lt.mpr (Int.natCast_nonneg _)
  unfold callerFailure
  simp only [RowFailure.ofIndex, if_pos hlt, if_neg hnonneg, hposition, Int.toNat_natCast, hrow]

/-- What rows report, each with its position in the caller's batch. -/
def reported (rows : List IndexedRow) (effects : List RowEffect) : List (Nat × String) :=
  (rows.zip effects).filterMap fun p => p.2.failure.map fun reason => (p.1.1, reason)

/-- A row reports the reason of the effect at its position. -/
theorem mem_reported {effects : List RowEffect} {p : Nat} {row : IndexedRow} {effect : RowEffect}
    {reason : String} (hrow : rows[p]? = some row) (heffect : effects[p]? = some effect)
    (hreason : effect.failure = some reason) : (row.1, reason) ∈ reported rows effects :=
  List.mem_filterMap.mpr ⟨(row, effect),
    List.mem_of_getElem? (List.getElem?_zip_eq_some.mpr ⟨hrow, heffect⟩), by rw [hreason]; rfl⟩

/-- Rows report in their order, and at most once each. -/
theorem reported_sublist (rows : List IndexedRow) (effects : List RowEffect) :
    ((reported rows effects).map Prod.fst).Sublist (rows.map Prod.fst) := by
  unfold reported
  induction rows generalizing effects with
  | nil => exact .refl []
  | cons row rest ih =>
    cases effects with
    | nil => exact List.nil_sublist _
    | cons effect others =>
      rw [List.zip_cons_cons, List.filterMap_cons]
      cases effect.failure with
      | none => exact (ih others).cons _
      | some reason => exact (ih others).cons_cons _

/-- The failures among rows from a position of a part on are what these rows report, each with its
position in the caller's batch. -/
theorem callerFailure_zipIdx {all : List IndexedRow} (hlength : all.length ≤ Wire.maxWireLength)
    {rows : List IndexedRow} {effects : List RowEffect} (h : effects.length = rows.length)
    {index : Nat} (hrows : ∀ p row, rows[p]? = some row → all[index + p]? = some row) :
    (((effects.zipIdx index).flatMap fun p =>
      (p.1.failure.map (RowFailure.ofIndex p.2)).toList).map (callerFailure all)) =
      (reported rows effects).map fun r => .ofIndex r.1 r.2 := by
  induction effects generalizing rows index with
  | nil => rw [reported, List.zip_nil_right]; rfl
  | cons e others ih =>
    cases rows with
    | nil => cases h
    | cons row rest =>
      have hnext : ∀ p row', rest[p]? = some row' → all[index + 1 + p]? = some row' := by
        intro p row' hp
        rw [Nat.add_assoc, Nat.add_comm 1]
        exact hrows (p + 1) row' hp
      rw [List.zipIdx_cons, List.flatMap_cons, List.map_append, ih (Nat.succ.inj h) hnext]
      unfold reported
      rw [List.zip_cons_cons, List.filterMap_cons]
      cases e.failure with
      | none => rfl
      | some reason =>
        have hrow : all[index]? = some row := hrows 0 row rfl
        have hfirst := callerFailure_ofIndex hlength hrow reason
        simp only [Option.map_some, Option.toList_some, List.map_cons, List.map_nil, hfirst,
          List.singleton_append]

/-- The failures among rows from a position of a part on are those of the rows whose effect is a
failure. -/
theorem index_callerFailure_zipIdx {all : List IndexedRow}
    (hlength : all.length ≤ Wire.maxWireLength) {effects : List RowEffect}
    (h : List.Forall₂ (fun row e => (effect row).Agrees e) rows effects) {index : Nat}
    (hrows : ∀ p row, rows[p]? = some row → all[index + p]? = some row) :
    ((((effects.zipIdx index).flatMap fun p =>
      (p.1.failure.map (RowFailure.ofIndex p.2)).toList).map (callerFailure all)).map
        RowFailure.index) =
      (rows.filter fun row => (effect row).failure.isSome).map fun row =>
        (RowFailure.ofIndex row.1 "").index := by
  rw [callerFailure_zipIdx hlength h.length_eq.symm hrows]
  clear hrows
  induction h with
  | nil => rfl
  | @cons row e rest others hagrees _ ih =>
    unfold reported at ih ⊢
    rw [List.zip_cons_cons, List.filterMap_cons, List.filter_cons, hagrees.failure]
    cases e.failure with
    | none => exact ih
    | some reason =>
      simp only [Option.map_some, List.map_cons, ih, Option.isSome_some, if_true]
      rfl

/-- Merging the outcome of a share adds its rows. -/
theorem collects_mergePart {ctx : ApplyContext σ} (hneed : ctx.needResult = needResult)
    (hlength : rows.length ≤ Wire.maxWireLength) {effects : List RowEffect} {writeSeq : Int64}
    {staged : Staged} (htells : Staged.Tells ctx 0 effects { batch := { writeSeq } } staged)
    (h : List.Forall₂ (fun row e => (effect row).Agrees e) rows effects) (result : EnlistResult) :
    Collects needResult effect rows result
      (result.mergePart rows (staged.outcome.relayed needResult)) := by
  subst hneed
  have hreturned : effects.map RowEffect.returned = rows.map fun row => (effect row).returned :=
    (map_eq_map_of_forall₂ h fun _ _ hagrees => hagrees.returned).symm
  have hwritten : (effects.countP fun e => e.written.isSome) =
      rows.countP fun row => (effect row).written.isSome := by
    clear htells hreturned hlength
    induction h with
    | nil => rfl
    | cons hagrees _ ih => rw [List.countP_cons, List.countP_cons, ih, hagrees.written]
  constructor
  · show fillSlots rows (staged.outcome.relayed ctx.needResult).previous result.previous = _
    rw [BatchOutcome.relayed, htells.previous]
    cases ctx.needResult with
    | false =>
      unfold fillSlots
      exact congrArg (List.foldl _ result.previous) List.zip_nil_right
    | true =>
      simp only [if_true, List.nil_append, hreturned, List.map_map]
      exact fillSlots_map rows _ _
  · show result.updated + staged.outcome.updated = _
    rw [htells.updated, hwritten, UInt64.zero_add]
  · show (result.failures ++ staged.outcome.failures.map (callerFailure rows)).map
      RowFailure.index = _
    rw [List.map_append, htells.failures, List.nil_append]
    refine congrArg _ (index_callerFailure_zipIdx hlength h fun p row hp => ?_)
    rwa [Nat.zero_add]

/-! ## All shares -/

/-- Sorting failures keeps them all. -/
theorem sortFailures_perm (result : EnlistResult) :
    result.sortFailures.failures.Perm result.failures := List.mergeSort_perm _ _

/-- The failures of a sorted result are in the order of their rows. -/
theorem pairwise_sortFailures (result : EnlistResult) :
    result.sortFailures.failures.Pairwise fun a b => a.index ≤ b.index := by
  refine (List.pairwise_mergeSort (fun a b c hab hbc => ?_) (fun a b => ?_) result.failures).imp
    fun hle => of_decide_eq_true hle
  · exact decide_eq_true (Int32.le_trans (of_decide_eq_true hab) (of_decide_eq_true hbc))
  · simpa using Int32.le_total a.index b.index

/-- The order in which rows are added makes no difference to what a caller is told. -/
theorem Collects.agrees_of_perm {rows' : List IndexedRow} {before after after' : EnlistResult}
    (h : Collects needResult effect rows before after)
    (h' : Collects needResult effect rows' before after') (hperm : rows.Perm rows')
    (hnodup : (rows.map Prod.fst).Nodup) : after.sortFailures.Agrees after'.sortFailures := by
  constructor
  · show after.previous = after'.previous
    rw [h.previous, h'.previous]
    split
    · refine hperm.foldl_eq' (fun row hrow other hother slots => ?_) _
      by_cases hsame : row.1 = other.1
      · rw [List.inj_on_of_nodup_map hnodup hrow hother hsame]
      · exact List.set_comm _ _ hsame
    · rfl
  · show after.updated = after'.updated
    rw [h.updated, h'.updated, hperm.countP_eq]
  · have hindices : (after.sortFailures.failures.map RowFailure.index).Perm
        (after'.sortFailures.failures.map RowFailure.index) := by
      refine (after.sortFailures_perm.map _).trans
        (List.Perm.trans ?_ (after'.sortFailures_perm.map _).symm)
      rw [h.failed, h'.failed]
      exact ((hperm.filter _).map _).append_left _
    exact hindices.eq_of_pairwise (fun a b _ _ => Int32.le_antisymm)
      (List.pairwise_map.mpr after.pairwise_sortFailures)
      (List.pairwise_map.mpr after'.pairwise_sortFailures)

end EnlistResult

end Enlistment
