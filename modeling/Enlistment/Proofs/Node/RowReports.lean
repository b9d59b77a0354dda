import Enlistment.Proofs.Caller.ReceiveLimits
import Enlistment.Proofs.Node.LastWrites
import Mathlib.Data.List.Basic

/-!
# What is reported of each row

The outcome of a batch and its puts are put together from the effects of its rows. A row that is
skipped keeps its slot in the results, a failure names the position of its row, and a row that
writes fails nowhere, so callers can tell from a position what became of the row there.
-/

namespace Enlistment

variable {σ : Type}

/-! ## Positions -/

/-- The reasons that effects report, each with the position of its row. -/
def RowEffect.reports (effects : List RowEffect) : List (Nat × String) :=
  effects.zipIdx.filterMap fun p => p.1.failure.map fun reason => (p.2, reason)

/-- What is reported of rows is in the order of the rows, and at most once of each. -/
theorem RowEffect.pairwise_reports (effects : List RowEffect) :
    (reports effects).Pairwise fun a b => a.1 < b.1 := by
  have hpositions : effects.zipIdx.Pairwise fun p q => p.2 < q.2 := by
    rw [← List.pairwise_map, List.zipIdx_map_snd]
    exact List.pairwise_lt_range'
  refine hpositions.filterMap _ fun p q hpq a ha b hb => ?_
  obtain ⟨reason, -, rfl⟩ := Option.map_eq_some_iff.mp ha
  obtain ⟨reason', -, rfl⟩ := Option.map_eq_some_iff.mp hb
  exact hpq

/-- A position and a reason are reported if the effect there has this reason. -/
theorem RowEffect.mem_reports {effects : List RowEffect} {i : Nat} {reason : String} :
    (i, reason) ∈ reports effects ↔
      ∃ effect, effects[i]? = some effect ∧ effect.failure = some reason := by
  rw [reports, List.mem_filterMap]
  constructor
  · rintro ⟨⟨effect, j⟩, hmem, heq⟩
    obtain ⟨found, hfailure, hpair⟩ := Option.map_eq_some_iff.mp heq
    obtain ⟨rfl, rfl⟩ := Prod.mk.inj hpair
    exact ⟨effect, List.mem_zipIdx_iff_getElem?.mp hmem, hfailure⟩
  · rintro ⟨effect, heffect, hfailure⟩
    refine ⟨(effect, i), List.mem_zipIdx_iff_getElem?.mpr heffect, ?_⟩
    rw [hfailure]
    rfl

/-- As many reasons are reported as there are effects that have one. -/
theorem RowEffect.length_reports (effects : List RowEffect) :
    (reports effects).length = effects.countP fun effect => effect.failure.isSome := by
  have heffects : (effects.zipIdx.map Prod.fst).countP (fun effect => effect.failure.isSome) =
      effects.countP fun effect => effect.failure.isSome := by rw [List.zipIdx_map_fst]
  rw [reports, List.length_filterMap_eq_countP, ← heffects, List.countP_map]
  simp only [Option.isSome_map, Function.comp_def]

/-- A position is reported as it is, up to the greatest number of 32 bits. -/
theorem RowFailure.toInt_index_ofIndex (i : Nat) (reason : String) :
    (ofIndex i reason).index.toInt = min i (2 ^ 31 - 1) := by
  unfold ofIndex
  split
  · next hi =>
    rw [Int32.toInt_ofNat_of_lt hi]
    omega
  · next hi =>
    have hmax : Int32.maxValue.toInt = 2 ^ 31 - 1 := rfl
    rw [hmax]
    omega

/-! ## Puts -/

/-- The write that a change makes, if it is a put. -/
def StoreOp.write? : StoreOp → Option RowWrite
  | put key _ value => some ⟨key, value⟩
  | lock _ _ | unlock _ | vacuum _ => none

/-- The puts of a batch in their order. -/
def StagedBatch.puts (batch : StagedBatch) : List RowWrite := batch.ops.filterMap StoreOp.write?

/-- As many writes are made as there are effects that write. -/
theorem RowEffect.length_flatMap_writes {rows : List (EnlistedRow σ)} {effects : List RowEffect}
    (h : effects.length = rows.length) :
    ((rows.zip effects).flatMap fun p => p.2.writes p.1.keyBytes).length =
      effects.countP fun effect => effect.written.isSome := by
  induction effects generalizing rows with
  | nil => rw [List.zip_nil_right]; rfl
  | cons effect effects ih =>
    cases rows with
    | nil => cases h
    | cons row rest =>
      rw [List.zip_cons_cons, List.flatMap_cons, List.length_append, ih (Nat.succ.inj h),
        List.countP_cons, Nat.add_comm]
      cases hwritten : effect.written <;> simp [writes, hwritten]

/-- One more row puts what it writes. -/
theorem Staged.puts_add (s : Staged) (ctx : ApplyContext σ) (index : Nat) (key : Bytes)
    (effect : RowEffect) :
    (s.add ctx index key effect).batch.puts = s.batch.puts ++ effect.writes key := by
  have hlocked : (if effect.locks = true then [StoreOp.lock key ctx.lock] else []).filterMap
      StoreOp.write? = [] := by
    split <;> rfl
  unfold add StagedBatch.puts RowEffect.writes
  cases effect.written <;>
    simp only [List.filterMap_append, hlocked, List.append_nil, Option.map_none, Option.map_some,
      Option.toList_none, Option.toList_some, List.filterMap_cons, List.filterMap_nil,
      StoreOp.write?]

/-- One more row is numbered if it writes and the writes are not stamped by a snapshot. -/
theorem Staged.writeSeq_add (s : Staged) (ctx : ApplyContext σ) (index : Nat) (key : Bytes)
    (effect : RowEffect) :
    (s.add ctx index key effect).batch.writeSeq = s.batch.writeSeq +
      Int64.ofNat (if ctx.snapshot.isNone then (effect.writes key).length else 0) := by
  have hstamp : ctx.mvccVersion.isNone = ctx.snapshot.isNone := Option.isNone_map
  unfold add RowEffect.writes
  cases effect.written with
  | none => simp
  | some value =>
    simp only [hstamp, Option.map_some, Option.toList_some, List.length_singleton]
    split
    · rfl
    · exact (Int64.add_zero _).symm

/-- Rows put what they write, in their order, and number it unless a snapshot stamps it. -/
theorem stageFrom_puts {store : Store} {ctx : ApplyContext σ} {index : Nat}
    {rows : List (EnlistedRow σ)} {s s' : Staged} {state state' : σ}
    (h : stageFrom store ctx index rows s state = (.ok s', state')) :
    let writes := (rows.zip (effectsFrom store ctx index rows s state)).flatMap fun p =>
      p.2.writes p.1.keyBytes
    s'.batch.puts = s.batch.puts ++ writes ∧
      s'.batch.writeSeq = s.batch.writeSeq +
        Int64.ofNat (if ctx.snapshot.isNone then writes.length else 0) := by
  induction rows generalizing index s state with
  | nil =>
    obtain rfl := Except.ok.inj (Prod.mk.inj h).1
    simp
  | cons row rest ih =>
    obtain ⟨effect, next, heffect, hrest⟩ := stageFrom_cons_ok h
    obtain ⟨hputs, hseq⟩ := ih hrest
    simp only [effectsFrom, heffect, List.zip_cons_cons, List.flatMap_cons, List.length_append]
    refine ⟨?_, ?_⟩
    · rw [hputs, Staged.puts_add, List.append_assoc]
    · rw [hseq, Staged.writeSeq_add, Int64.add_assoc, ← Int64.ofNat_add]
      split <;> rfl

/-! ## Batches -/

/-- What is staged lines up with the rows of a batch. Each row has an effect of its own, that of
trying it on what the rows before it have staged, and the outcome and the puts are those of the
effects, in the order of the rows. -/
structure Staged.LinesUp (s : NodeState) (ctx : ApplyContext σ) (rows : List (EnlistedRow σ))
    (state : σ) (effects : List RowEffect) (staged : Staged) : Prop where
  length : effects.length = rows.length
  tried : ∀ i effect, effects[i]? = some effect → ∃ row before now later,
    rows[i]? = some row ∧ s.stageRows ctx (rows.take i) state = (.ok before, now) ∧
      rowOutcome ctx i row (s.store.rival ctx.lock row.keyBytes)
        (currentValue s.store ctx before.batch row.keyBytes) now = (.ok effect, later)
  previous : staged.outcome.previous =
    if ctx.needResult then effects.map RowEffect.returned else []
  failures : staged.outcome.failures =
    (RowEffect.reports effects).map fun p => .ofIndex p.1 p.2
  puts : staged.batch.puts = (rows.zip effects).flatMap fun p => p.2.writes p.1.keyBytes

namespace Staged.LinesUp

variable {s : NodeState} {ctx : ApplyContext σ} {rows : List (EnlistedRow σ)} {state : σ}
  {effects : List RowEffect} {staged : Staged}

/-- Every effect is one that a row may have. -/
theorem possible (h : staged.LinesUp s ctx rows state effects) :
    ∀ effect ∈ effects, effect.Possible := by
  intro effect hmem
  obtain ⟨i, hi⟩ := List.mem_iff_getElem?.mp hmem
  obtain ⟨row, before, now, later, -, -, houtcome⟩ := h.tried i effect hi
  exact rowOutcome_possible houtcome

/-- There is a slot for each row if results were asked for, and none otherwise. -/
theorem length_previous (h : staged.LinesUp s ctx rows state effects) :
    staged.outcome.previous.length = if ctx.needResult then rows.length else 0 := by
  rw [h.previous]
  split
  · rw [List.length_map, h.length]
  · rfl

/-- A failure names a position of the batch. -/
theorem index_lt (h : staged.LinesUp s ctx rows state effects) :
    ∀ failure ∈ staged.outcome.failures,
      0 ≤ failure.index.toInt ∧ failure.index.toInt < rows.length := by
  intro failure hmem
  rw [h.failures] at hmem
  obtain ⟨⟨i, reason⟩, hreported, rfl⟩ := List.mem_map.mp hmem
  obtain ⟨effect, heffect, -⟩ := RowEffect.mem_reports.mp hreported
  have hi : i < rows.length := h.length ▸ (List.getElem?_eq_some_iff.mp heffect).1
  rw [RowFailure.toInt_index_ofIndex]
  omega

/-- The positions of the failures increase, as far as 32 bits can tell them apart. -/
theorem pairwise_index (h : staged.LinesUp s ctx rows state effects) :
    staged.outcome.failures.Pairwise fun a b => a.index < b.index ∨
      2 ^ 31 < rows.length ∧ a.index = Int32.maxValue ∧ b.index = Int32.maxValue := by
  rw [h.failures, List.pairwise_map]
  refine (RowEffect.pairwise_reports effects).imp_of_mem fun {a b} ha hb hab => ?_
  obtain ⟨effect, heffect, -⟩ := RowEffect.mem_reports.mp hb
  have hb' : b.1 < rows.length := h.length ▸ (List.getElem?_eq_some_iff.mp heffect).1
  have hindex := RowFailure.toInt_index_ofIndex a.1 a.2
  have hindex' := RowFailure.toInt_index_ofIndex b.1 b.2
  by_cases hcut : a.1 < 2 ^ 31 - 1
  · refine .inl (Int32.lt_iff_toInt_lt.mpr ?_)
    omega
  · have hmax : Int32.maxValue.toInt = 2 ^ 31 - 1 := rfl
    refine .inr ⟨by omega, Int32.toInt.inj ?_, Int32.toInt.inj ?_⟩ <;> omega

/-- A row that writes does not fail, so there are at most as many puts and failures as rows. -/
theorem length_puts_add_le (h : staged.LinesUp s ctx rows state effects) :
    staged.batch.puts.length + staged.outcome.failures.length ≤ rows.length := by
  rw [h.puts, RowEffect.length_flatMap_writes h.length, h.failures, List.length_map,
    RowEffect.length_reports, ← h.length,
    List.length_eq_countP_add_countP (fun effect : RowEffect => effect.written.isSome)]
  refine Nat.add_le_add_left (List.countP_mono_left fun effect hmem hfailed => ?_) _
  rw [decide_eq_true_eq]
  intro hwritten
  rw [(h.possible effect hmem).failure_eq_none hwritten] at hfailed
  cases hfailed

end Staged.LinesUp

/-- Staging lines up with the rows: their effects are found one by one. -/
theorem NodeState.stageRows_linesUp {s : NodeState} {ctx : ApplyContext σ}
    {rows : List (EnlistedRow σ)} {staged : Staged} {state state' : σ}
    (h : s.stageRows ctx rows state = (.ok staged, state')) :
    staged.LinesUp s ctx rows state
      (effectsFrom s.store ctx 0 rows { batch := { writeSeq := s.writeSeq } } state) := by
  obtain ⟨hlength, htells⟩ := stageFrom_tells h
  obtain ⟨hputs, -⟩ := stageFrom_puts h
  refine ⟨hlength, fun i effect heffect => ?_, htells.previous, ?_, hputs⟩
  · have htried := effectsFrom_getElem? heffect
    rwa [Nat.zero_add] at htried
  · rw [htells.failures, List.nil_append, RowEffect.reports, List.map_filterMap,
      List.filterMap_eq_flatMap_toList]
    simp only [Option.map_map, Function.comp_def]

/-- A node that has staged rows is as it was, and its state changes by the commit only, which the
view must allow once more. -/
theorem Node.applyRows_of_staged [HasTopology σ] {n : Node σ} {req : EnlistRequest σ}
    {op : Operation} {rows : List (EnlistedRow σ)} {staged : Staged} {state state' : σ}
    (h : n.state.stageRows (req.applyContext op) rows state = (.ok staged, state')) :
    n.applyRows req op rows state =
      match (HasTopology.topology state').validate req.topology
        (rows.map fun row => row.keyObject.partition) n.id with
      | .error e => (.error e, n, state')
      | .ok () =>
        (.ok staged.outcome, { n with state := n.state.commit staged.batch }, state') := by
  unfold EnlistRequest.applyContext at h
  cases hvalid : (HasTopology.topology state').validate req.topology
    (rows.map fun row => row.keyObject.partition) n.id <;> simp only [applyRows, h, hvalid]

/-- A batch that a node has received is short enough for all positions to be told apart. -/
theorem NodeState.pairwise_index_of_received {n : Node σ} (hvalid : n.config.validate = .ok ())
    {payload : Bytes} {req req' : EnlistRequest σ} (hread : n.decodeRequest payload = .ok req)
    (hreq : req.unmarshal n.loader = (.ok (), req')) {s : NodeState} {ctx : ApplyContext σ}
    {staged : Staged} {state state' : σ}
    (h : s.stageRows ctx req'.takeRows.1 state = (.ok staged, state')) :
    staged.outcome.failures.Pairwise fun a b => a.index < b.index := by
  have hlimit := EnlistConfig.maxArrayLength_le hvalid
  have hshort : req'.takeRows.1.length ≤ 2 ^ 31 - 1 :=
    Nat.le_trans (n.length_rows_le hlimit hread hreq) hlimit
  refine (stageRows_linesUp h).pairwise_index.imp fun {a b} hab => hab.resolve_right fun hlong => ?_
  have habove := hlong.1
  omega

namespace NodeState

variable [HasTopology σ]

/-- Outcomes line up with rows. Let the rows of a batch be staged on a node in any state. The rows
have effects, one each, from which the outcome and the puts are made in the order of the rows. So
there is a slot in the results for each row if results were asked for, and there are none otherwise;
the failures name positions of the batch, in increasing order; as many rows are counted as are put;
no row is both counted and reported; the puts are numbered on from the last write, unless a snapshot
stamps them and no number is used; and the node is left alone until the batch is committed.

Counts and numbers have 64 bits. Positions are cut to the greatest number of 32 bits, so in a batch
that has more rows than that the last failures may share it. -/
theorem stageRows_row_by_row {s : NodeState} {ctx : ApplyContext σ} {rows : List (EnlistedRow σ)}
    {staged : Staged} {state state' : σ} (h : s.stageRows ctx rows state = (.ok staged, state')) :
    ∃ effects : List RowEffect, staged.LinesUp s ctx rows state effects ∧
      (staged.outcome.previous.length = if ctx.needResult then rows.length else 0) ∧
      ((RowEffect.reports effects).Pairwise fun a b => a.1 < b.1) ∧
      (staged.outcome.failures.Pairwise fun a b => a.index < b.index ∨
        2 ^ 31 < rows.length ∧ a.index = Int32.maxValue ∧ b.index = Int32.maxValue) ∧
      (∀ failure ∈ staged.outcome.failures,
        0 ≤ failure.index.toInt ∧ failure.index.toInt < rows.length) ∧
      staged.outcome.updated = UInt64.ofNat staged.batch.puts.length ∧
      (∀ effect ∈ effects, effect.written.isSome → effect.failure = none) ∧
      staged.batch.puts.length + staged.outcome.failures.length ≤ rows.length ∧
      staged.batch.writeSeq = s.writeSeq +
        Int64.ofNat (if ctx.snapshot.isNone then staged.batch.puts.length else 0) ∧
      ∀ (n : Node σ) (req : EnlistRequest σ), n.state = s → req.applyContext ctx.op = ctx →
        n.applyRows req ctx.op rows state =
          match (HasTopology.topology state').validate req.topology
            (rows.map fun row => row.keyObject.partition) n.id with
          | .error e => (.error e, n, state')
          | .ok () =>
            (.ok staged.outcome, { n with state := s.commit staged.batch }, state') := by
  have hrows := stageRows_linesUp h
  obtain ⟨hputs, hseq⟩ := stageFrom_puts h
  obtain ⟨-, htells⟩ := stageFrom_tells h
  refine ⟨_, hrows, hrows.length_previous, RowEffect.pairwise_reports _, hrows.pairwise_index,
    hrows.index_lt, ?_, fun effect hmem => (hrows.possible effect hmem).failure_eq_none,
    hrows.length_puts_add_le, ?_, ?_⟩
  · rw [htells.updated, hrows.puts, RowEffect.length_flatMap_writes hrows.length]
    exact UInt64.zero_add _
  · rw [hseq, hrows.puts]
  · rintro n req rfl hctx
    exact Node.applyRows_of_staged (hctx.symm ▸ h)

/-- Of three rows to insert the first is no entry, the second is written, and the third finds the
key of the second occupied. All three keep their slots, and the two that fail are reported. -/
theorem stageRows_row_by_row_of_three_rows :
    let context : MarshalContext := .ofCache 1 16
    let entry (k v : Int64) : EnlistedRow TopologyView :=
      .entry (.ofKey context (.int k)) (.ofValue (.int v))
    let rows : List (EnlistedRow TopologyView) :=
      [.key (.ofKey context (.int 1)), entry 2 20, entry 2 21]
    let ctx : ApplyContext TopologyView :=
      { op := .insert, filter := none, snapshot := none, lock := ⟨1, 1, 1⟩, needResult := true }
    let s : NodeState := { writeSeq := 6 }
    ∃ staged state', s.stageRows ctx rows (.ofNodes [1] 16) = (.ok staged, state') ∧
      staged.outcome.previous.map ReturnValue.value = [none, none, some (.int 20)] ∧
      staged.outcome.failures =
        [⟨0, "row shape does not match Insert"⟩, ⟨2, "entry already exists"⟩] ∧
      staged.batch.puts = [⟨(Value.int 2).encode, some (Value.int 20).encode⟩] ∧
      staged.outcome.updated = 1 ∧ staged.batch.writeSeq = 7 := by
  intro context entry rows ctx s
  obtain ⟨staged, state', hstaged⟩ :
      ∃ staged state', s.stageRows ctx rows (.ofNodes [1] 16) = (.ok staged, state') := ⟨_, _, rfl⟩
  have hmade : (s.stageRows ctx rows (.ofNodes [1] 16)).1.toOption.map (fun staged =>
      (staged.outcome.previous.map ReturnValue.value, staged.outcome.failures,
        staged.batch.puts)) =
      some ([none, none, some (.int 20)],
        [⟨0, "row shape does not match Insert"⟩, ⟨2, "entry already exists"⟩],
        [⟨(Value.int 2).encode, some (Value.int 20).encode⟩]) := by decide +kernel
  rw [hstaged] at hmade
  simp only [Except.toOption, Option.map_some, Option.some.injEq, Prod.mk.injEq] at hmade
  obtain ⟨hprevious, hfailures, hputs⟩ := hmade
  obtain ⟨effects, -, -, -, -, -, hupdated, -, -, hseq, -⟩ := stageRows_row_by_row hstaged
  rw [hputs] at hupdated hseq
  exact ⟨staged, state', hstaged, hprevious, hfailures, hputs, hupdated, hseq⟩

end NodeState

end Enlistment
