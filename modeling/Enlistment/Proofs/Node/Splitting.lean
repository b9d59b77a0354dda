import Enlistment.Proofs.Node.Actions

/-!
# Splitting a batch

Whether rows are staged in one batch or the later ones only after the earlier ones have been
committed makes no difference. In one batch a later row reads what is staged, and otherwise it
reads the store through its snapshot. The two agree because what a transaction puts is on top
of all that it can read.
-/

namespace Enlistment

variable {σ : Type}

/-! ## Positions of failures -/

/-- The failure with its position moved on by a number of rows. -/
def RowFailure.shift (count : Nat) (f : RowFailure) : RowFailure :=
  .ofIndex (count + f.index.toInt.toNat) f.reason

/-- A position that is moved on is cut in the same way as one further on. -/
theorem RowFailure.index_shift_ofIndex (count index : Nat) (reason reason' : String) :
    ((RowFailure.ofIndex index reason).shift count).index =
      (RowFailure.ofIndex (count + index) reason').index := by
  unfold shift ofIndex
  by_cases hindex : index < 2147483648
  · have hposition : (Int32.ofNat index).toInt = index := Int32.toInt_ofNat_of_lt hindex
    simp only [if_pos hindex, hposition, Int.toNat_natCast]
  · have hposition : Int32.maxValue.toInt.toNat = 2147483647 := rfl
    have hbeyond : ¬ count + index < 2147483648 := by omega
    simp only [if_neg hindex, if_neg hbeyond, hposition]
    split
    · next hlast =>
      have hcount : count = 0 := by omega
      subst hcount
      rfl
    · rfl

/-- The failure of a row, if it fails, is found further on in a longer batch. -/
theorem RowFailure.index_shift_toList (count index : Nat) {failure failure' : Option String}
    (h : failure.isSome = failure'.isSome) :
    (failure.map fun reason => RowFailure.ofIndex (count + index) reason).toList.map
        RowFailure.index =
      ((failure'.map fun reason => RowFailure.ofIndex index reason).toList.map
        (RowFailure.shift count)).map RowFailure.index := by
  cases failure with
  | none =>
    cases failure' with
    | none => rfl
    | some reason' => cases h
  | some reason =>
    cases failure' with
    | none => cases h
    | some reason' =>
      have hindex := RowFailure.index_shift_ofIndex count index reason' reason
      simp only [Option.map_some, Option.toList_some, List.map_cons, List.map_nil, hindex]

/-! ## One batch and two -/

/-- What is staged after a first part agrees with what is staged on its own once the first
part, of a given number of rows, has been committed. -/
structure Staged.Continues (first : Staged) (count : Nat) (whole rest : Staged) : Prop where
  ops : whole.batch.ops = first.batch.ops ++ rest.batch.ops
  writes : ∀ key, whole.batch.writes.get? key =
    (rest.batch.writes.get? key).or (first.batch.writes.get? key)
  writeSeq : whole.batch.writeSeq = rest.batch.writeSeq
  previous : whole.outcome.previous = first.outcome.previous ++ rest.outcome.previous
  updated : whole.outcome.updated = first.outcome.updated + rest.outcome.updated
  failures : whole.outcome.failures.map RowFailure.index =
    (first.outcome.failures ++ rest.outcome.failures.map (RowFailure.shift count)).map
      RowFailure.index

namespace Staged.Continues

variable {first whole rest : Staged} {count : Nat}

/-- Nothing is staged on its own right after the first part. -/
theorem start (first : Staged) (count : Nat) :
    first.Continues count first { batch := { writeSeq := first.batch.writeSeq } } where
  ops := (List.append_nil _).symm
  writes _ := rfl
  writeSeq := rfl
  previous := (List.append_nil _).symm
  updated := (UInt64.add_zero _).symm
  failures := by rw [List.map_nil, List.append_nil]

/-- One more row keeps the agreement. -/
theorem add (ctx : ApplyContext σ) (h : first.Continues count whole rest) (index : Nat) (key : Bytes)
    {effect effect' : RowEffect} (heffect : effect.Agrees effect') :
    first.Continues count (whole.add ctx (count + index) key effect)
      (rest.add ctx index key effect') := by
  obtain ⟨failure, returned, locks, written⟩ := effect
  obtain ⟨failure', returned', locks', written'⟩ := effect'
  obtain ⟨hfailure, rfl, rfl, rfl⟩ := heffect
  obtain ⟨hops, hwrites, hseq, hprevious, hupdated, hfailures⟩ := h
  have hall : (whole.outcome.failures ++
        (failure.map fun reason => RowFailure.ofIndex (count + index) reason).toList).map
          RowFailure.index =
      (first.outcome.failures ++ (rest.outcome.failures ++
        (failure'.map fun reason => RowFailure.ofIndex index reason).toList).map
          (RowFailure.shift count)).map RowFailure.index := by
    rw [List.map_append, hfailures, RowFailure.index_shift_toList count index hfailure]
    simp only [List.map_append, List.append_assoc]
  cases written with
  | none =>
    constructor
    · simp only [Staged.add, hops, List.append_assoc]
    · exact hwrites
    · exact hseq
    · simp only [Staged.add, hprevious, List.append_assoc]
    · exact hupdated
    · exact hall
  | some value =>
    constructor
    · simp only [Staged.add, hops, hseq, List.append_assoc]
    · intro key'
      simp only [Staged.add, Table.get?_set]
      split
      · rfl
      · exact hwrites key'
    · simp only [Staged.add, hseq]
    · simp only [Staged.add, hprevious, List.append_assoc]
    · simp only [Staged.add, hupdated, UInt64.add_assoc]
    · exact hall

end Staged.Continues

/-- The current value of a key is what has been staged for it, or else what is stored. -/
theorem currentValue_eq (store : Store) (ctx : ApplyContext σ) (batch : StagedBatch)
    (key : Bytes) : currentValue store ctx batch key =
      decodeStored ((batch.writes.get? key).getD (store.visible key ctx.snapshot)) := by
  unfold currentValue
  cases batch.writes.get? key <;> rfl

/-- Later rows of a batch can also be staged once the first part has been committed, and what
is staged agrees. -/
theorem stageFrom_continues {store : Store} {ctx : ApplyContext σ} {first : Staged} {count : Nat}
    (hpermitted : first.batch.Permitted store ctx) (hreads : first.ReadsBack store ctx)
    {index : Nat} {rows : List (EnlistedRow σ)} {whole whole' rest : Staged} {state state' : σ}
    (hcontinues : first.Continues count whole rest)
    (h : stageFrom store ctx (count + index) rows whole state = (.ok whole', state')) :
    ∃ rest', stageFrom (first.batch.ops.foldl Store.apply store) ctx index rows rest state =
        (.ok rest', state') ∧ first.Continues count whole' rest' := by
  induction rows generalizing index whole rest state with
  | nil =>
    obtain ⟨hwhole, rfl⟩ := Prod.mk.inj h
    obtain rfl := Except.ok.inj hwhole
    exact ⟨rest, rfl, hcontinues⟩
  | cons row others ih =>
    obtain ⟨effect, next, hrow, hothers⟩ := stageFrom_cons_ok h
    have hrival : (first.batch.ops.foldl Store.apply store).rival ctx.lock row.keyBytes =
        store.rival ctx.lock row.keyBytes := rival_foldl_permitted hpermitted rfl
    have hcurrent : currentValue (first.batch.ops.foldl Store.apply store) ctx rest.batch
        row.keyBytes = currentValue store ctx whole.batch row.keyBytes := by
      rw [currentValue_eq, currentValue_eq, hreads.visible, hcontinues.writes]
      cases rest.batch.writes.get? row.keyBytes <;> rfl
    obtain ⟨effect', hrow', hagrees⟩ := rowOutcome_agrees hrow index
    have hnext := hcontinues.add ctx index row.keyBytes hagrees
    rw [Nat.add_assoc] at hothers
    obtain ⟨rest', hrest', hcontinues'⟩ := ih hnext hothers
    refine ⟨rest', ?_, hcontinues'⟩
    rw [stageFrom_cons, hrival, hcurrent, hrow']
    exact hrest'

namespace Node

variable [HasTopology σ]

/-- A batch has the effect of its rows applied one after the other. If the rows `xs ++ ys` can be
staged on a node in either mode, then so can `xs`, and `ys` once `xs` has been committed, in the
state in which the user code of `xs` has left its surroundings. The versions, the locks and the
number of the last write are the same in the end. The previous values of the two parts make up
those of the batch, the updates add up, and the failures of the second part are found further
on by the number of rows in the first one.

Without snapshots the writes are numbered in 64 bits, so the keys that the node has been asked
for and those of `xs` must not use up these numbers. -/
theorem stageRows_append_eq_twice {start n : Node σ} {actions : List (NodeAction σ)}
    (hstart : start.state = {}) (hn : start.performAll actions = n) {ctx : ApplyContext σ}
    (hmode : ctx.snapshot.isSome = n.config.mvccEnabled) {xs ys : List (EnlistedRow σ)}
    (hroom : n.config.mvccEnabled = false →
      (actions.map NodeAction.keys).sum + xs.length < 2 ^ 63)
    {staged : Staged} {state state' : σ}
    (h : n.state.stageRows ctx (xs ++ ys) state = (.ok staged, state')) :
    ∃ first middle second,
      n.state.stageRows ctx xs state = (.ok first, middle) ∧
      (n.state.commit first.batch).stageRows ctx ys middle = (.ok second, state') ∧
      ((n.state.commit first.batch).commit second.batch).store =
        (n.state.commit staged.batch).store ∧
      ((n.state.commit first.batch).commit second.batch).writeSeq =
        (n.state.commit staged.batch).writeSeq ∧
      staged.outcome.previous = first.outcome.previous ++ second.outcome.previous ∧
      staged.outcome.updated = first.outcome.updated + second.outcome.updated ∧
      staged.outcome.failures.map RowFailure.index =
        (first.outcome.failures ++ second.outcome.failures.map (RowFailure.shift xs.length)).map
          RowFailure.index := by
  have hformed : n.state.store.WellFormed := hn ▸ wellFormed_performAll hstart actions
  have hnumbered : ctx.snapshot = none →
      n.state.store.Bounded n.state.writeSeq ∧ n.state.writeSeq.toInt + xs.length < 2 ^ 63 := by
    intro hnone
    have hplain : n.config.mvccEnabled = false := by rw [← hmode, hnone]; rfl
    have hconfig : start.config.mvccEnabled = false := by
      rw [← start.performAll_config actions, hn, hplain]
    have hkeys := hroom hplain
    obtain ⟨hbounded, hseq⟩ := numbered_performAll hstart hconfig actions (by omega)
    rw [hn] at hbounded hseq
    exact ⟨hbounded, by omega⟩
  obtain ⟨first, middle, hfirst, hsecond⟩ := stageFrom_append h
  have hpermitted := n.state.stageRows_permitted hfirst
  obtain ⟨hreads, -⟩ := n.state.stageRows_readsBack hfirst hformed
    (fun hnone => (hnumbered hnone).1) fun hnone => (hnumbered hnone).2
  rw [Nat.add_comm 0] at hsecond
  obtain ⟨second, hsecond', hcontinues⟩ :=
    stageFrom_continues hpermitted hreads (Staged.Continues.start first xs.length) hsecond
  refine ⟨first, middle, second, hfirst, hsecond', ?_, hcontinues.writeSeq.symm,
    hcontinues.previous, hcontinues.updated, hcontinues.failures⟩
  have hops : staged.batch.ops.foldl Store.apply n.state.store =
      second.batch.ops.foldl Store.apply (first.batch.ops.foldl Store.apply n.state.store) := by
    rw [hcontinues.ops, List.foldl_append]
  exact hops.symm

/-- Two inserts under one key: the second one fails, at its own position in the batch and at the
first one if it is staged on its own. -/
theorem stageRows_insert_twice :
    let view := TopologyView.ofNodes [1] 1
    let start : Node TopologyView :=
      { id := 1, config := {}, loader := .ofRegistrations [] [] [], context := .ofCache 1 1 }
    let row (value : Value) : EnlistedRow TopologyView :=
      .entry (.ofKey start.context (.int 3)) (.ofValue value)
    let ctx : ApplyContext TopologyView :=
      { op := .insert, filter := none, snapshot := none, lock := ⟨1, 1, 1⟩, needResult := true }
    ∃ staged first middle second,
      start.state.stageRows ctx [row (.int 4), row (.int 5)] view = (.ok staged, view) ∧
      start.state.stageRows ctx [row (.int 4)] view = (.ok first, middle) ∧
      (start.state.commit first.batch).stageRows ctx [row (.int 5)] middle = (.ok second, view) ∧
      ((start.state.commit first.batch).commit second.batch).store =
        (start.state.commit staged.batch).store ∧
      staged.outcome.failures.map RowFailure.index = [1] := by
  intro view start row ctx
  have hok : (start.state.stageRows ctx [row (.int 4), row (.int 5)] view).1.isOk = true := by
    decide +kernel
  have hview : (start.state.stageRows ctx [row (.int 4), row (.int 5)] view).2 = view := by
    decide +kernel
  have hfailures : (start.state.stageRows ctx [row (.int 4), row (.int 5)] view).1.toOption.map
      (fun staged => staged.outcome.failures.map RowFailure.index) = some [1] := by
    decide +kernel
  rcases hstaged : start.state.stageRows ctx [row (.int 4), row (.int 5)] view with
    ⟨e | staged, state'⟩ <;> rw [hstaged] at hok hview hfailures
  · cases hok
  · obtain rfl : state' = view := hview
    have hstart : start.state = {} := rfl
    have hn : start.performAll [] = start := rfl
    have hmode : ctx.snapshot.isSome = start.config.mvccEnabled := rfl
    have hsplit : start.state.stageRows ctx ([row (.int 4)] ++ [row (.int 5)]) view =
        (.ok staged, view) := hstaged
    obtain ⟨first, middle, second, hfirst, hsecond, hstore, -⟩ :=
      stageRows_append_eq_twice hstart hn hmode (fun _ => by decide) hsplit
    exact ⟨staged, first, middle, second, rfl, hfirst, hsecond, hstore, Option.some.inj hfailures⟩

end Node

end Enlistment
