import Enlistment.Proofs.Node.Ownership
import Enlistment.Proofs.Node.RowReports

/-!
# Rows that are reported

A row that is reported writes nothing, and all of them but one kind lock nothing either: a row to
insert that finds an entry there is reported, and its key is locked nevertheless. So the versions
of a key all of whose rows are reported outlast the commit, and its lock does so unless one of
these rows has found the key occupied.
-/

namespace Enlistment

variable {σ : Type}

/-! ## Changes of one key -/

/-- A put leaves the versions of all other keys alone, also if it is skipped. -/
theorem Store.versions_apply_put_of_ne (s : Store) {k key : Bytes} (h : k ≠ key)
    (version : EntryVersion) (value : Option Bytes) :
    (s.apply (.put k version value)).versions key = s.versions key := by
  unfold apply
  split
  · rfl
  · rw [versions_execute_put, if_neg h]

/-- The key that a change locks, if it is a lock. -/
def StoreOp.locked? : StoreOp → Option Bytes
  | lock key _ => some key
  | put _ _ _ | unlock _ | vacuum _ => none

/-- The keys that a batch locks, in the order of its changes. -/
def StagedBatch.locked (batch : StagedBatch) : List Bytes := batch.ops.filterMap StoreOp.locked?

section

variable {store : Store} {ctx : ApplyContext σ} {ops : List StoreOp} {t : Store} {key : Bytes}

/-- Permitted changes give a key that they lock to the transaction, and leave all other locks
alone. -/
theorem lockOwner_foldl_locked (h : ∀ op ∈ ops, op.Permitted store ctx) :
    (ops.foldl Store.apply t).lockOwner key =
      if key ∈ ops.filterMap StoreOp.locked? then some ctx.lock else t.lockOwner key := by
  induction ops generalizing t with
  | nil => rfl
  | cons op rest ih =>
    obtain ⟨hop, hrest⟩ := List.forall_mem_cons.mp h
    rw [List.foldl_cons, ih hrest]
    cases hop with
    | @lock k hfree =>
      rw [Store.lockOwner_apply_lock, List.filterMap_cons_some (f := StoreOp.locked?) rfl]
      simp only [List.mem_cons, eq_comm (a := key)]
      by_cases hlater : key ∈ rest.filterMap StoreOp.locked?
      · rw [if_pos hlater, if_pos (.inr hlater)]
      · simp only [hlater, if_false, or_false]
    | put hfree hstamp =>
      rw [Store.lockOwner_apply_put, List.filterMap_cons_none rfl]

/-- Permitted changes leave the versions of a key alone that they put nothing to. -/
theorem versions_foldl_unwritten (h : ∀ op ∈ ops, op.Permitted store ctx)
    (hkey : ∀ w ∈ ops.filterMap StoreOp.write?, w.key ≠ key) :
    (ops.foldl Store.apply t).versions key = t.versions key := by
  induction ops generalizing t with
  | nil => rfl
  | cons op rest ih =>
    obtain ⟨hop, hrest⟩ := List.forall_mem_cons.mp h
    rw [List.foldl_cons]
    cases hop with
    | lock hfree =>
      rw [List.filterMap_cons_none rfl] at hkey
      rw [ih hrest hkey, Store.versions_apply_lock]
    | put hfree hstamp =>
      rw [List.filterMap_cons_some (f := StoreOp.write?) rfl] at hkey
      obtain ⟨hother, hkey'⟩ := List.forall_mem_cons.mp hkey
      rw [ih hrest hkey', Store.versions_apply_put_of_ne _ hother]

end

/-! ## Locks that are staged -/

/-- One more row locks its key if its effect says so. -/
theorem Staged.locked_add (s : Staged) (ctx : ApplyContext σ) (index : Nat) (key : Bytes)
    (effect : RowEffect) : (s.add ctx index key effect).batch.locked =
      s.batch.locked ++ if effect.locks = true then [key] else [] := by
  unfold add StagedBatch.locked
  cases effect.written <;> cases effect.locks <;> simp [StoreOp.locked?]

/-- Rows lock what their effects lock, in their order. -/
theorem stageFrom_locked {store : Store} {ctx : ApplyContext σ} {index : Nat}
    {rows : List (EnlistedRow σ)} {s s' : Staged} {state state' : σ}
    (h : stageFrom store ctx index rows s state = (.ok s', state')) :
    s'.batch.locked = s.batch.locked ++
      (rows.zip (effectsFrom store ctx index rows s state)).flatMap fun p =>
        if p.2.locks = true then [p.1.keyBytes] else [] := by
  induction rows generalizing index s state with
  | nil =>
    obtain rfl := Except.ok.inj (Prod.mk.inj h).1
    exact (List.append_nil _).symm
  | cons row rest ih =>
    obtain ⟨effect, next, heffect, hrest⟩ := stageFrom_cons_ok h
    simp only [effectsFrom, heffect, List.zip_cons_cons, List.flatMap_cons]
    rw [ih hrest, Staged.locked_add, List.append_assoc]

/-! ## Reported rows -/

/-- Texts that begin differently differ. -/
theorem append_ne_of_head? {s t u : String} {c : Char} (hs : s.toList.head? = some c)
    (hu : u.toList.head? ≠ some c) : s ++ t ≠ u := by
  rintro rfl
  rw [String.toList_append, List.head?_append, hs] at hu
  exact hu rfl

/-- An accepted row that is reported locks its key if an entry was to be inserted and there is one
already, and not otherwise. The cases are the operations with the rows that they take, and all
other pairs. -/
theorem rowEffect_failed {op : Operation} {row : EnlistedRow σ} {key : Value}
    {current : Option Value} {state : σ} {reason : String}
    (h : (rowEffect op row key current state).1.failure = some reason) :
    (rowEffect op row key current state).1.locks = true ↔
      op = .insert ∧ reason = "entry already exists" := by
  unfold rowEffect at h ⊢
  split at h
  · dsimp only
    split at h
    · next hsome =>
      obtain rfl := Option.some.inj h
      rw [if_pos hsome]
      exact ⟨fun _ => ⟨rfl, rfl⟩, fun _ => rfl⟩
    · cases h
  · cases h
  · cases h
  · cases h
  · cases h
  · dsimp only
    split at h
    · simp [RowEffect.skipped]
    · dsimp only at h
      split at h
      · simp [RowEffect.skipped]
      · cases h
  · have hne : reason ≠ "entry already exists" := by
      rw [← Option.some.inj h]
      exact append_ne_of_head? (c := 'r') rfl (by decide)
    constructor
    · intro hlocks
      cases hlocks
    · intro hoccupied
      exact absurd hoccupied.2 hne

/-- A row that is reported locks its key if an entry was to be inserted and there is one already,
and not otherwise. -/
theorem rowOutcome_failed {ctx : ApplyContext σ} {index : Nat} {row : EnlistedRow σ}
    {rival : Option LockVersion} {current : Except EnlistError (Option Value)} {state state' : σ}
    {effect : RowEffect} (h : rowOutcome ctx index row rival current state = (.ok effect, state'))
    {reason : String} (hreason : effect.failure = some reason) :
    effect.locks = true ↔ ctx.op = .insert ∧ reason = "entry already exists" := by
  have hskipped : ∀ {refused : String}, reason = refused → refused ≠ "entry already exists" →
      effect.locks = false →
      (effect.locks = true ↔ ctx.op = .insert ∧ reason = "entry already exists") := by
    rintro refused rfl hne hlocks
    simp [hlocks, hne]
  unfold rowOutcome at h
  split at h
  · obtain rfl := Except.ok.inj (Prod.mk.inj h).1
    exact hskipped (Option.some.inj hreason).symm (by decide) rfl
  · obtain rfl := Except.ok.inj (Prod.mk.inj h).1
    exact hskipped (Option.some.inj hreason).symm
      (append_ne_of_head? (c := 'l') rfl (by decide)) rfl
  · unfold acceptedOutcome at h
    cases current with
    | error e => cases h
    | ok current =>
      dsimp only at h
      split at h
      · obtain rfl := Except.ok.inj (Prod.mk.inj h).1
        refine hskipped (Option.some.inj hreason).symm ?_ rfl
        show "row " ++ toString index ++ " rejected by filter" ≠ _
        rw [String.append_assoc]
        exact append_ne_of_head? (c := 'r') rfl (by decide)
      · obtain rfl := Except.ok.inj (Prod.mk.inj h).1
        exact rowEffect_failed hreason

/-! ## Keys whose rows are reported -/

/-- All rows of a key are reported. -/
def RowEffect.AllReported (rows : List (EnlistedRow σ)) (effects : List RowEffect) (key : Bytes) :
    Prop :=
  ∀ i row, rows[i]? = some row → row.keyObject.bytes = some key →
    ∃ reason, (i, reason) ∈ reports effects

/-- A row of a key is reported for a reason. -/
def RowEffect.ReportedFor (rows : List (EnlistedRow σ)) (effects : List RowEffect) (key : Bytes)
    (reason : String) : Prop :=
  ∃ i row, rows[i]? = some row ∧ row.keyObject.bytes = some key ∧ (i, reason) ∈ reports effects

/-- A row and its effect stand at one position. -/
theorem exists_getElem?_of_mem_zip {A B : Type} {as : List A} {bs : List B} {p : A × B}
    (h : p ∈ as.zip bs) : ∃ i : Nat, as[i]? = some p.1 ∧ bs[i]? = some p.2 := by
  obtain ⟨i, hi⟩ := List.mem_iff_getElem?.mp h
  exact ⟨i, List.getElem?_zip_eq_some.mp hi⟩

namespace Staged.LinesUp

variable {s : NodeState} {ctx : ApplyContext σ} {rows : List (EnlistedRow σ)} {state : σ}
  {effects : List RowEffect} {staged : Staged} {key : Bytes}

/-- What is said of the row at a position: its effect is that of a try on the store. -/
theorem outcome (h : staged.LinesUp s ctx rows state effects) {i : Nat} {row : EnlistedRow σ}
    {effect : RowEffect} (hrow : rows[i]? = some row) (heffect : effects[i]? = some effect) :
    ∃ current now later, rowOutcome ctx i row (s.store.rival ctx.lock row.keyBytes) current now =
      (.ok effect, later) := by
  obtain ⟨found, before, now, later, hfound, -, houtcome⟩ := h.tried i effect heffect
  obtain rfl := Option.some.inj (hrow.symm.trans hfound)
  exact ⟨_, now, later, houtcome⟩

/-- Nothing is put to a key all of whose rows are reported. -/
theorem unwritten (h : staged.LinesUp s ctx rows state effects)
    (hkey : RowEffect.AllReported rows effects key) : ∀ w ∈ staged.batch.puts, w.key ≠ key := by
  rintro w hw rfl
  rw [h.puts] at hw
  obtain ⟨⟨row, effect⟩, hpair, hwrite⟩ := List.mem_flatMap.mp hw
  obtain ⟨i, hrow, heffect⟩ := exists_getElem?_of_mem_zip hpair
  obtain ⟨value, hwritten, rfl⟩ := Option.map_eq_some_iff.mp (Option.mem_toList.mp hwrite)
  obtain ⟨current, now, later, houtcome⟩ := h.outcome hrow heffect
  have hlocks := (rowOutcome_locksIfWrites houtcome).locks (Option.isSome_of_eq_some hwritten)
  obtain ⟨reason, hreported⟩ := hkey i row hrow (rowOutcome_marshalled houtcome hlocks)
  obtain ⟨found, hfound, hfailure⟩ := RowEffect.mem_reports.mp hreported
  obtain rfl := Option.some.inj (heffect.symm.trans hfound)
  have hnone := (rowOutcome_possible houtcome).failure_eq_none (Option.isSome_of_eq_some hwritten)
  rw [hnone] at hfailure
  cases hfailure

/-- A key all of whose rows are reported is locked if one of them has found it occupied, and not
otherwise. -/
theorem locked_iff (h : staged.LinesUp s ctx rows state effects)
    (hlocked : staged.batch.locked = (rows.zip effects).flatMap fun p =>
      if p.2.locks = true then [p.1.keyBytes] else [])
    (hkey : RowEffect.AllReported rows effects key) : key ∈ staged.batch.locked ↔
      ctx.op = .insert ∧ RowEffect.ReportedFor rows effects key "entry already exists" := by
  rw [hlocked, List.mem_flatMap]
  constructor
  · rintro ⟨⟨row, effect⟩, hpair, hmem⟩
    obtain ⟨i, hrow, heffect⟩ := exists_getElem?_of_mem_zip hpair
    obtain ⟨current, now, later, houtcome⟩ := h.outcome hrow heffect
    split at hmem
    · next hlocks =>
      obtain rfl := List.mem_singleton.mp hmem
      have hbytes := rowOutcome_marshalled houtcome hlocks
      obtain ⟨reason, hreported⟩ := hkey i row hrow hbytes
      obtain ⟨found, hfound, hfailure⟩ := RowEffect.mem_reports.mp hreported
      obtain rfl := Option.some.inj (heffect.symm.trans hfound)
      obtain ⟨hop, rfl⟩ := (rowOutcome_failed houtcome hfailure).mp hlocks
      exact ⟨hop, i, row, hrow, hbytes, hreported⟩
    · cases hmem
  · rintro ⟨hop, i, row, hrow, hbytes, hreported⟩
    obtain ⟨effect, heffect, hfailure⟩ := RowEffect.mem_reports.mp hreported
    obtain ⟨current, now, later, houtcome⟩ := h.outcome hrow heffect
    have hlocks := (rowOutcome_failed houtcome hfailure).mpr ⟨hop, rfl⟩
    refine ⟨(row, effect), ?_, ?_⟩
    · exact List.mem_of_getElem? (List.getElem?_zip_eq_some.mpr ⟨hrow, heffect⟩)
    · rw [if_pos hlocks, EnlistedRow.keyBytes_eq hbytes]
      exact List.mem_singleton_self key

/-- In a batch whose positions 32 bits can tell apart, the failures name the positions that are
reported. -/
theorem index_iff (h : staged.LinesUp s ctx rows state effects) (hshort : rows.length ≤ 2 ^ 31)
    (i : Nat) : (∃ failure ∈ staged.outcome.failures, failure.index.toInt = i) ↔
      ∃ reason, (i, reason) ∈ RowEffect.reports effects := by
  rw [h.failures]
  have hindex : ∀ p ∈ RowEffect.reports effects,
      (RowFailure.ofIndex p.1 p.2).index.toInt = p.1 := by
    intro p hp
    obtain ⟨effect, heffect, -⟩ := RowEffect.mem_reports.mp hp
    have hlt : p.1 < rows.length := h.length ▸ (List.getElem?_eq_some_iff.mp heffect).1
    rw [RowFailure.toInt_index_ofIndex]
    omega
  constructor
  · rintro ⟨failure, hmem, hi⟩
    obtain ⟨⟨j, reason⟩, hreported, rfl⟩ := List.mem_map.mp hmem
    rw [hindex _ hreported] at hi
    obtain rfl : j = i := Int.ofNat.inj hi
    exact ⟨reason, hreported⟩
  · rintro ⟨reason, hreported⟩
    exact ⟨_, List.mem_map_of_mem hreported, hindex _ hreported⟩

end Staged.LinesUp

namespace NodeState

/-- Reported rows are skipped, but for inserts that find an entry. Let a batch be staged on a node
in any state, and let all rows of a key be reported. Then the commit leaves the versions of the key
as they were. It also leaves the lock of the key as it was, unless an entry was to be inserted and
one of these rows is reported because there is one already: then the transaction has locked the key.

Positions are those of the rows; the failures name them as far as 32 bits can tell them apart. -/
theorem skipped_but_occupied {s : NodeState} {ctx : ApplyContext σ} {rows : List (EnlistedRow σ)}
    {staged : Staged} {state state' : σ} (h : s.stageRows ctx rows state = (.ok staged, state')) :
    ∃ effects : List RowEffect, staged.LinesUp s ctx rows state effects ∧
      (rows.length ≤ 2 ^ 31 → ∀ i : Nat,
        (∃ failure ∈ staged.outcome.failures, failure.index.toInt = i) ↔
          ∃ reason, (i, reason) ∈ RowEffect.reports effects) ∧
      ∀ key, RowEffect.AllReported rows effects key →
        let occupied := ctx.op = .insert ∧
          RowEffect.ReportedFor rows effects key "entry already exists"
        (s.commit staged.batch).store.versions key = s.store.versions key ∧
          (¬ occupied →
            (s.commit staged.batch).store.lockOwner key = s.store.lockOwner key) ∧
          (occupied → (s.commit staged.batch).store.lockOwner key = some ctx.lock) := by
  have hrows := stageRows_linesUp h
  have hlocked := stageFrom_locked h
  rw [show ({ batch := { writeSeq := s.writeSeq } } : Staged).batch.locked = [] from rfl,
    List.nil_append] at hlocked
  have hpermitted := stageRows_permitted h
  refine ⟨_, hrows, hrows.index_iff, fun key hkey => ?_⟩
  have hlock := hrows.locked_iff hlocked hkey
  have howner : (s.commit staged.batch).store.lockOwner key =
      if key ∈ staged.batch.locked then some ctx.lock
      else s.store.lockOwner key := lockOwner_foldl_locked hpermitted
  refine ⟨versions_foldl_unwritten hpermitted (hrows.unwritten hkey), fun hfree => ?_,
    fun hoccupied => ?_⟩
  · exact howner.trans (if_neg fun hmem => hfree (hlock.mp hmem))
  · exact howner.trans (if_pos (hlock.mpr hoccupied))

/-- Of two rows to update one has a key that another transaction has locked, and the other one is no
entry. Both are reported, and the first key keeps its lock and its version. -/
theorem skipped_but_occupied_of_two_rows :
    let context : MarshalContext := .ofCache 1 16
    let key := Value.encode (.int 3)
    let rows : List (EnlistedRow TopologyView) :=
      [.entry (.ofKey context (.int 3)) (.ofValue (.int 5)), .key (.ofKey context (.int 4))]
    let ctx : ApplyContext TopologyView :=
      { op := .update, filter := none, snapshot := none, lock := ⟨1, 2, 1⟩, needResult := false }
    let s : NodeState :=
      { store := { data := [(key, [⟨⟨0, 1⟩, some [2, 8]⟩])], locks := [(key, ⟨1, 1, 1⟩)] } }
    ∃ staged state', s.stageRows ctx rows (.ofNodes [1] 16) = (.ok staged, state') ∧
      staged.outcome.failures.map RowFailure.index = [0, 1] ∧
      (s.commit staged.batch).store.versions key = [⟨⟨0, 1⟩, some [2, 8]⟩] ∧
      (s.commit staged.batch).store.lockOwner key = some ⟨1, 1, 1⟩ := by
  intro context key rows ctx s
  obtain ⟨staged, state', hstaged⟩ :
      ∃ staged state', s.stageRows ctx rows (.ofNodes [1] 16) = (.ok staged, state') := ⟨_, _, rfl⟩
  have hindices : staged.outcome.failures.map RowFailure.index = [0, 1] := by
    have hmade : (s.stageRows ctx rows (.ofNodes [1] 16)).1.toOption.map
        (fun staged => staged.outcome.failures.map RowFailure.index) = some [0, 1] := by
      decide +kernel
    rw [hstaged] at hmade
    exact Option.some.inj hmade
  obtain ⟨effects, -, hindex, hkeys⟩ := skipped_but_occupied hstaged
  have hreported : RowEffect.AllReported rows effects key := by
    intro i row hrow hkey
    have hi : i < rows.length := (List.getElem?_eq_some_iff.mp hrow).1
    have hnamed : ∀ j ∈ [(0 : Int32), 1], ∃ failure ∈ staged.outcome.failures, failure.index = j :=
      fun j hj => List.mem_map.mp (hindices ▸ hj)
    refine (hindex (by decide) i).mp ?_
    obtain rfl | rfl : i = 0 ∨ i = 1 := by
      have hlength : rows.length = 2 := rfl
      omega
    · obtain ⟨failure, hmem, hzero⟩ := hnamed 0 (by decide)
      exact ⟨failure, hmem, hzero ▸ rfl⟩
    · obtain ⟨failure, hmem, hone⟩ := hnamed 1 (by decide)
      exact ⟨failure, hmem, hone ▸ rfl⟩
  obtain ⟨hversions, hfree, -⟩ := hkeys key hreported
  have hother : ¬ (ctx.op = .insert ∧
      RowEffect.ReportedFor rows effects key "entry already exists") := fun h => by cases h.1
  exact ⟨staged, state', hstaged, hindices, hversions, hfree hother⟩

/-- A row to insert that finds an entry is reported and not skipped. On a node where a finished
transaction has left an entry, the only row of another one is reported, and still its commit locks
the key, which nobody had locked before. -/
theorem occupied_insert_locks :
    let view := TopologyView.ofNodes [1] 16
    let start : Node TopologyView :=
      { id := 1, config := {}, loader := .ofRegistrations [] [] [], context := .ofCache 1 16 }
    let key := Value.encode (.int 3)
    let insert (lock : LockVersion) : EnlistRequest TopologyView :=
      { base := { cacheId := 1 }, topology := ⟨1, 0⟩, lock, op := some .insert
        wire := some (.entries [.ofKey start.context (.int 3)]
          [(ValueObject.ofValue (.int 4)).marshal]) }
    let n := start.performAll [.request (insert ⟨1, 1, 1⟩) view, .finish ⟨1, 1, 1⟩]
    let rows : List (EnlistedRow TopologyView) :=
      [.entry (.ofKey start.context (.int 3)) (.ofValue (.int 5))]
    let ctx : ApplyContext TopologyView :=
      { op := .insert, filter := none, snapshot := none, lock := ⟨1, 2, 1⟩, needResult := false }
    ∃ staged state', n.state.stageRows ctx rows view = (.ok staged, state') ∧
      staged.outcome.failures = [⟨0, "entry already exists"⟩] ∧
      n.state.store.lockOwner key = none ∧
      (n.state.commit staged.batch).store.lockOwner key = some ⟨1, 2, 1⟩ := by
  intro view start key insert n rows ctx
  have hmade : (n.state.stageRows ctx rows view).1.toOption.map (fun staged =>
      (staged.outcome.failures, (n.state.commit staged.batch).store.lockOwner key)) =
      some ([⟨0, "entry already exists"⟩], some ⟨1, 2, 1⟩) := by decide +kernel
  have hfree : n.state.store.lockOwner key = none := by decide +kernel
  rcases hstaged : n.state.stageRows ctx rows view with ⟨e | staged, state'⟩ <;>
    rw [hstaged] at hmade
  · cases hmade
  · obtain ⟨hfailures, howner⟩ := Prod.mk.inj (Option.some.inj hmade)
    exact ⟨staged, state', rfl, hfailures, hfree, howner⟩

end NodeState

end Enlistment
