import Enlistment.Proofs.Node.LastWrites

/-!
# What requests write

What a request writes follows from its operation, its rows and what its snapshot reads of their
keys behind the writes of the rows before. A relation says so, with one case for each way that a
row can go. What a node stages for the rows are these writes and no others.
-/

namespace Enlistment

variable {σ : Type}

/-! ## Accepted rows -/

/-- What an operation does with an accepted row, given the value that is read of its key: what it
stores there, where an inner `none` removes the entry, and the state that user code leaves. -/
inductive Operation.Writes (key : Value) (state : σ) :
    Operation → EnlistedRow σ → Option Value → Option (Option Bytes) → σ → Prop
  | insert (k : KeyObject) (v : ValueObject) :
      Writes key state .insert (.entry k v) none (some (some (storedBytes v))) state
  | insertOccupied (k : KeyObject) (v : ValueObject) (old : Value) :
      Writes key state .insert (.entry k v) (some old) none state
  | update (k : KeyObject) (v : ValueObject) (old : Value) :
      Writes key state .update (.entry k v) (some old) (some (some (storedBytes v))) state
  | updateMissing (k : KeyObject) (v : ValueObject) :
      Writes key state .update (.entry k v) none none state
  | upsert (k : KeyObject) (v : ValueObject) (current : Option Value) :
      Writes key state .upsert (.entry k v) current (some (some (storedBytes v))) state
  | delete (k : KeyObject) (old : Value) :
      Writes key state .delete (.key k) (some old) (some none) state
  | deleteMissing (k : KeyObject) : Writes key state .delete (.key k) none none state
  | lock (k : KeyObject) (current : Option Value) :
      Writes key state .lock (.key k) current none state
  /-- The processor has changed the entry. -/
  | invoke {k : KeyObject} {i : InvokeValue σ} {processor : EntryProcessor σ}
      {current returned : Option Value} {entry : MutableEntry} {state' : σ}
      (hresolved : i.resolved = some processor)
      (hrun : processor.process state (.ofCurrent key current) i.argValues =
        ⟨.ok returned, entry, state'⟩) (hmodified : entry.modified = true) :
      Writes key state .invoke (.invoke k i) current (some (entry.value.map Value.encode)) state'
  /-- The processor has left the entry alone. -/
  | invokeUnmodified {k : KeyObject} {i : InvokeValue σ} {processor : EntryProcessor σ}
      {current returned : Option Value} {entry : MutableEntry} {state' : σ}
      (hresolved : i.resolved = some processor)
      (hrun : processor.process state (.ofCurrent key current) i.argValues =
        ⟨.ok returned, entry, state'⟩) (hmodified : entry.modified = false) :
      Writes key state .invoke (.invoke k i) current none state'
  /-- The processor has failed, whatever it did to the entry. -/
  | invokeFailed {k : KeyObject} {i : InvokeValue σ} {processor : EntryProcessor σ}
      {current : Option Value} {chain : CauseChain} {entry : MutableEntry} {state' : σ}
      (hresolved : i.resolved = some processor)
      (hrun : processor.process state (.ofCurrent key current) i.argValues =
        ⟨.error chain, entry, state'⟩) :
      Writes key state .invoke (.invoke k i) current none state'
  | invokeUnresolved {k : KeyObject} {i : InvokeValue σ} (current : Option Value)
      (hresolved : i.resolved = none) :
      Writes key state .invoke (.invoke k i) current none state
  /-- The row has not the shape that the operation takes. -/
  | misfit {op : Operation} {row : EnlistedRow σ} (current : Option Value)
      (hmisfit : ¬ row.Fits op) : Writes key state op row current none state

/-- An accepted row writes what its operation does with it. -/
theorem Operation.writes_rowEffect (op : Operation) (row : EnlistedRow σ) (key : Value)
    (current : Option Value) (state : σ) :
    op.Writes key state row current (rowEffect op row key current state).1.written
      (rowEffect op row key current state).2 := by
  unfold rowEffect
  split
  · cases current with
    | none => exact .insert _ _
    | some old => exact .insertOccupied _ _ old
  · cases current with
    | none => exact .updateMissing _ _
    | some old => exact .update _ _ old
  · exact .upsert _ _ current
  · cases current with
    | none => exact .deleteMissing _
    | some old => exact .delete _ old
  · exact .lock _ current
  · next i =>
    split
    · next hnone => exact .invokeUnresolved current hnone
    · next processor hresolved =>
      rcases hrun : processor.process state (.ofCurrent key current) i.argValues with
        ⟨_ | returned, entry, state'⟩
      · exact .invokeFailed hresolved hrun
      · dsimp only [RowEffect.applied]
        split
        · next hmodified => exact .invoke hresolved hrun hmodified
        · next hmodified =>
          exact .invokeUnmodified hresolved hrun (eq_false_of_ne_true hmodified)
  · next hinsert hupdate hupsert hdelete hlock hinvoke =>
    refine .misfit current fun hfits => ?_
    cases row with
    | key k =>
      cases op with
      | delete => exact hdelete k rfl rfl
      | lock => exact hlock k rfl rfl
      | _ => cases hfits
    | entry k v =>
      obtain ⟨hkeys, hinvocation⟩ := hfits
      cases op with
      | insert => exact hinsert k v rfl rfl
      | update => exact hupdate k v rfl rfl
      | upsert => exact hupsert k v rfl rfl
      | delete | lock => cases hkeys
      | invoke => cases hinvocation
    | invoke k i =>
      cases op with
      | invoke => exact hinvoke k i rfl rfl
      | _ => cases hfits

/-- An operation does one thing with an accepted row. -/
theorem Operation.Writes.eq_rowEffect {op : Operation} {row : EnlistedRow σ} {key : Value}
    {current : Option Value} {state state' : σ} {written : Option (Option Bytes)}
    (h : op.Writes key state row current written state') :
    written = (rowEffect op row key current state).1.written ∧
      state' = (rowEffect op row key current state).2 := by
  cases h with
  | insert | insertOccupied | update | updateMissing | upsert | delete | deleteMissing | lock =>
    exact ⟨rfl, rfl⟩
  | invoke hresolved hrun hmodified | invokeUnmodified hresolved hrun hmodified =>
    simp [rowEffect, hresolved, hrun, hmodified, RowEffect.applied]
  | invokeFailed hresolved hrun => simp [rowEffect, hresolved, hrun, RowEffect.skipped]
  | invokeUnresolved _ hresolved => simp [rowEffect, hresolved, RowEffect.skipped]
  | misfit _ hmisfit =>
    cases op <;> cases row <;>
      first | exact ⟨rfl, rfl⟩ | exact absurd rfl hmisfit | exact absurd ⟨rfl, rfl⟩ hmisfit

/-! ## Rows of a request -/

/-- What a snapshot reads of a key behind some writes: the last of them, or else the store. -/
def Store.readBehind (store : Store) (snapshot : Option Snapshot) (writes : List RowWrite)
    (key : Bytes) : Except EnlistError (Option Value) :=
  match lastWrite key writes with
  | some value => decodeStored value
  | none => decodeStored (store.visible key snapshot)

/-- Whether the filter of a request, if it has one, accepts an entry, and the state it leaves. -/
def ApplyContext.Accepts (ctx : ApplyContext σ) (key : Value) (current : Option Value)
    (state state' : σ) : Prop :=
  (ctx.filter = none ∧ state' = state) ∨
    ∃ f, ctx.filter = some f ∧ f.evaluate state key current = (true, state')

/-- What a row writes behind the rows before, and the state that user code leaves. A row whose key
another transaction has locked or that the filter refuses writes nothing. -/
inductive RowWrites (store : Store) (ctx : ApplyContext σ) (before : List RowWrite)
    (row : EnlistedRow σ) (state : σ) : List RowWrite → σ → Prop
  | unmarshalled (hkey : row.keyObject.bytes = none) : RowWrites store ctx before row state [] state
  | locked {key : Bytes} {owner : LockVersion} (hkey : row.keyObject.bytes = some key)
      (howner : store.lockOwner key = some owner) (hother : owner ≠ ctx.lock) :
      RowWrites store ctx before row state [] state
  | refused {key : Bytes} {current : Option Value} {f : Filter σ} {state' : σ}
      (hkey : row.keyObject.bytes = some key)
      (hfree : ∀ owner, store.lockOwner key = some owner → owner = ctx.lock)
      (hcurrent : store.readBehind ctx.snapshot before key = .ok current)
      (hfilter : ctx.filter = some f)
      (hrefuses : f.evaluate state (row.keyObject.value.getD .null) current = (false, state')) :
      RowWrites store ctx before row state [] state'
  | accepted {key : Bytes} {current : Option Value} {written : Option (Option Bytes)}
      {filtered state' : σ} (hkey : row.keyObject.bytes = some key)
      (hfree : ∀ owner, store.lockOwner key = some owner → owner = ctx.lock)
      (hcurrent : store.readBehind ctx.snapshot before key = .ok current)
      (haccepts : ctx.Accepts (row.keyObject.value.getD .null) current state filtered)
      (hwrites : ctx.op.Writes (row.keyObject.value.getD .null) filtered row current written
        state') :
      RowWrites store ctx before row state (written.map fun value => ⟨key, value⟩).toList state'

/-- What rows write, one behind the other. -/
inductive RowsWrite (store : Store) (ctx : ApplyContext σ) :
    List RowWrite → List (EnlistedRow σ) → σ → List RowWrite → σ → Prop
  | nil (before : List RowWrite) (state : σ) : RowsWrite store ctx before [] state [] state
  | cons {before now later : List RowWrite} {row : EnlistedRow σ} {rest : List (EnlistedRow σ)}
      {state state' state'' : σ} (hrow : RowWrites store ctx before row state now state')
      (hrest : RowsWrite store ctx (before ++ now) rest state' later state'') :
      RowsWrite store ctx before (row :: rest) state (now ++ later) state''

/-- What is staged of each key is the last of some writes. -/
def Staged.Holds (s : Staged) (writes : List RowWrite) : Prop :=
  ∀ key, s.batch.writes.get? key = lastWrite key writes

/-- One more row leaves what is staged the last of the writes. -/
theorem Staged.Holds.add {s : Staged} {before : List RowWrite} (h : s.Holds before)
    (ctx : ApplyContext σ) (index : Nat) (key : Bytes) (effect : RowEffect) :
    (s.add ctx index key effect).Holds (before ++ effect.writes key) := by
  intro key'
  rw [Staged.get?_writes_add, h key', RowEffect.writes, lastWrite_append_toList]

/-- The current value of a row is what is read behind the writes that are staged. -/
theorem Staged.Holds.currentValue_eq {s : Staged} {before : List RowWrite} (h : s.Holds before)
    (store : Store) (ctx : ApplyContext σ) (key : Bytes) :
    currentValue store ctx s.batch key = store.readBehind ctx.snapshot before key := by
  cases hlast : lastWrite key before with
  | none => simp only [currentValue, Store.readBehind, (h key).trans hlast, hlast]
  | some value => simp only [currentValue, Store.readBehind, (h key).trans hlast, hlast]

/-- A filter accepts an entry or refuses it. -/
theorem ApplyContext.accepts_or_refuses (ctx : ApplyContext σ) (key : Value)
    (current : Option Value) (state : σ) :
    (∃ filtered, ctx.Accepts key current state filtered) ∨
      ∃ f state', ctx.filter = some f ∧ f.evaluate state key current = (false, state') := by
  cases hfilter : ctx.filter with
  | none => exact .inl ⟨state, .inl ⟨hfilter, rfl⟩⟩
  | some f =>
    rcases hf : f.evaluate state key current with ⟨_ | _, filtered⟩
    · exact .inr ⟨f, filtered, rfl, hf⟩
    · exact .inl ⟨filtered, .inr ⟨f, hfilter, hf⟩⟩

section

variable {ctx : ApplyContext σ} {row : EnlistedRow σ} {current : Option Value} {state : σ}

/-- The operation is carried out with an entry that is accepted. -/
theorem ApplyContext.Accepts.outcome {filtered : σ}
    (h : ctx.Accepts (row.keyObject.value.getD .null) current state filtered) (index : Nat) :
    acceptedOutcome ctx index row (.ok current) state =
      (.ok (rowEffect ctx.op row (row.keyObject.value.getD .null) current filtered).1,
        (rowEffect ctx.op row (row.keyObject.value.getD .null) current filtered).2) := by
  obtain ⟨hfilter, heq⟩ | ⟨f, hfilter, hf⟩ := h
  · simp only [acceptedOutcome, hfilter, Option.map_none, Option.getD_none, heq]
  · simp only [acceptedOutcome, hfilter, Option.map_some, hf, Option.getD_some]

/-- An entry that is refused is reported with its current value. -/
theorem acceptedOutcome_refused {f : Filter σ} {state' : σ} (hfilter : ctx.filter = some f)
    (hrefuses : f.evaluate state (row.keyObject.value.getD .null) current = (false, state'))
    (index : Nat) :
    acceptedOutcome ctx index row (.ok current) state =
      (.ok { RowEffect.skipped (EnlistError.predicateFailure index).message with
        returned := .ofValue current }, state') := by
  simp only [acceptedOutcome, hfilter, Option.map_some, hrefuses]

variable {store : Store} {s : Staged} {before : List RowWrite} {key : Bytes}

/-- The outcome of a row whose key no other transaction has locked follows from what is read behind
the rows before. -/
theorem rowOutcome_free (hs : s.Holds before) (hkey : row.keyObject.bytes = some key)
    (hfree : ∀ owner, store.lockOwner key = some owner → owner = ctx.lock) (index : Nat)
    (state : σ) :
    rowOutcome ctx index row (store.rival ctx.lock row.keyBytes)
        (currentValue store ctx s.batch row.keyBytes) state =
      acceptedOutcome ctx index row (store.readBehind ctx.snapshot before key) state := by
  simp only [rowOutcome, hkey, EnlistedRow.keyBytes_eq hkey, Store.rival_eq_none_iff.mpr hfree,
    hs.currentValue_eq]

/-- The outcome of a row says what it writes. -/
theorem rowWrites_of_outcome {index : Nat} {effect : RowEffect} {next : σ} (hs : s.Holds before)
    (h : rowOutcome ctx index row (store.rival ctx.lock row.keyBytes)
      (currentValue store ctx s.batch row.keyBytes) state = (.ok effect, next)) :
    RowWrites store ctx before row state (effect.writes row.keyBytes) next := by
  cases hkey : row.keyObject.bytes with
  | none =>
    simp only [rowOutcome, hkey] at h
    obtain ⟨heffect, rfl⟩ := Prod.mk.inj h
    obtain rfl := Except.ok.inj heffect
    exact .unmarshalled hkey
  | some key =>
    cases hrival : store.rival ctx.lock key with
    | some owner =>
      simp only [rowOutcome, hkey, EnlistedRow.keyBytes_eq hkey, hrival] at h
      obtain ⟨heffect, rfl⟩ := Prod.mk.inj h
      obtain rfl := Except.ok.inj heffect
      obtain ⟨howner, hother⟩ := Store.rival_eq_some_iff.mp hrival
      exact .locked hkey howner hother
    | none =>
      have hfree := Store.rival_eq_none_iff.mp hrival
      rw [rowOutcome_free hs hkey hfree] at h
      cases hcurrent : store.readBehind ctx.snapshot before key with
      | error e =>
        rw [hcurrent] at h
        cases (Prod.mk.inj h).1
      | ok current =>
        rw [hcurrent] at h
        rcases ctx.accepts_or_refuses (row.keyObject.value.getD .null) current state with
          ⟨filtered, haccepts⟩ | ⟨f, state', hfilter, hrefuses⟩
        · obtain ⟨heffect, rfl⟩ := Prod.mk.inj ((haccepts.outcome index).symm.trans h)
          obtain rfl := Except.ok.inj heffect
          rw [EnlistedRow.keyBytes_eq hkey]
          exact .accepted hkey hfree hcurrent haccepts (ctx.op.writes_rowEffect row _ current _)
        · obtain ⟨heffect, rfl⟩ :=
            Prod.mk.inj ((acceptedOutcome_refused hfilter hrefuses index).symm.trans h)
          obtain rfl := Except.ok.inj heffect
          exact .refused hkey hfree hcurrent hfilter hrefuses

/-- What a row writes is what its outcome says. -/
theorem RowWrites.outcome {writes : List RowWrite} {state' : σ}
    (h : RowWrites store ctx before row state writes state') (hs : s.Holds before) (index : Nat) :
    ∃ effect, rowOutcome ctx index row (store.rival ctx.lock row.keyBytes)
        (currentValue store ctx s.batch row.keyBytes) state = (.ok effect, state') ∧
      writes = effect.writes row.keyBytes := by
  cases h with
  | unmarshalled hkey =>
    exact ⟨.skipped "key is not marshalled", by simp only [rowOutcome, hkey], rfl⟩
  | @locked key owner hkey howner hother =>
    refine ⟨.skipped ("locked by " ++ owner.render), ?_, rfl⟩
    simp only [rowOutcome, hkey, EnlistedRow.keyBytes_eq hkey,
      Store.rival_eq_some_iff.mpr ⟨howner, hother⟩]
  | refused hkey hfree hcurrent hfilter hrefuses =>
    have houtcome := rowOutcome_free hs hkey hfree index state
    rw [hcurrent, acceptedOutcome_refused hfilter hrefuses] at houtcome
    exact ⟨_, houtcome, rfl⟩
  | accepted hkey hfree hcurrent haccepts hwrites =>
    obtain ⟨rfl, rfl⟩ := hwrites.eq_rowEffect
    have houtcome := rowOutcome_free hs hkey hfree index state
    rw [hcurrent, haccepts.outcome] at houtcome
    refine ⟨_, houtcome, ?_⟩
    rw [EnlistedRow.keyBytes_eq hkey]
    rfl

end

/-- Rows that are staged write what their outcomes say, and nothing else. -/
theorem rowsWrite_iff {store : Store} {ctx : ApplyContext σ} {index : Nat}
    {rows : List (EnlistedRow σ)} {s s' : Staged} {before writes : List RowWrite}
    {state next state' : σ} (h : stageFrom store ctx index rows s state = (.ok s', next))
    (hs : s.Holds before) :
    RowsWrite store ctx before rows state writes state' ↔
      writes = rowWrites store ctx index rows s state ∧ state' = next := by
  induction rows generalizing index s before writes state with
  | nil =>
    obtain rfl := (Prod.mk.inj h).2
    constructor
    · rintro ⟨⟩
      exact ⟨rfl, rfl⟩
    · rintro ⟨rfl, rfl⟩
      exact .nil before _
  | cons row rest ih =>
    obtain ⟨effect, between, houtcome, hrest⟩ := stageFrom_cons_ok h
    have hlater : ∀ later,
        RowsWrite store ctx (before ++ effect.writes row.keyBytes) rest between later state' ↔
          later = rowWrites store ctx (index + 1) rest (s.add ctx index row.keyBytes effect)
            between ∧ state' = next :=
      fun _ => ih hrest (hs.add ctx index row.keyBytes effect)
    have hall : rowWrites store ctx index (row :: rest) s state = effect.writes row.keyBytes ++
        rowWrites store ctx (index + 1) rest (s.add ctx index row.keyBytes effect) between := by
      rw [rowWrites, houtcome]
    rw [hall]
    constructor
    · intro hwrite
      cases hwrite with
      | cons hrow hrest' =>
        obtain ⟨effect', houtcome', rfl⟩ := hrow.outcome hs index
        obtain ⟨heffect, rfl⟩ := Prod.mk.inj (houtcome.symm.trans houtcome')
        obtain rfl := Except.ok.inj heffect
        obtain ⟨rfl, rfl⟩ := (hlater _).mp hrest'
        exact ⟨rfl, rfl⟩
    · rintro ⟨rfl, rfl⟩
      exact .cons (rowWrites_of_outcome hs houtcome) ((hlater _).mpr ⟨rfl, rfl⟩)

/-- What is staged of each key is the last that the rows write. -/
theorem Staged.Holds.stageFrom {store : Store} {ctx : ApplyContext σ} {index : Nat}
    {rows : List (EnlistedRow σ)} {s s' : Staged} {before : List RowWrite} {state next : σ}
    (hs : s.Holds before) (h : stageFrom store ctx index rows s state = (.ok s', next)) :
    s'.Holds (before ++ rowWrites store ctx index rows s state) := by
  induction rows generalizing index s before state with
  | nil =>
    obtain rfl := Except.ok.inj (Prod.mk.inj h).1
    rwa [rowWrites, List.append_nil]
  | cons row rest ih =>
    obtain ⟨effect, between, houtcome, hrest⟩ := stageFrom_cons_ok h
    simp only [rowWrites, houtcome]
    rw [← List.append_assoc]
    exact ih (hs.add ctx index row.keyBytes effect) hrest

/-! ## Requests -/

namespace Node

variable [HasTopology σ]

/-- What a request writes on a node: nothing if it is refused or has no operation, and otherwise
what its rows write, by its snapshot and under its lock. -/
inductive Writes (n : Node σ) (req : EnlistRequest σ) (state : σ) : List RowWrite → Prop
  | refused {err : EnlistError} (herror : (n.enlist req state).1 = .error err) :
      Writes n req state []
  | idle {outcome : BatchOutcome} (hok : (n.enlist req state).1 = .ok outcome)
      (hop : req.op = none) : Writes n req state []
  | enlisted {outcome : BatchOutcome} {req' : EnlistRequest σ} {op : Operation}
      {writes : List RowWrite} {state' : σ} (hok : (n.enlist req state).1 = .ok outcome)
      (hreq : req.unmarshal n.loader = (.ok (), req')) (hop : req.op = some op)
      (hrows : RowsWrite n.state.store (req'.applyContext op) [] req'.takeRows.1 state writes
        state') :
      Writes n req state writes

/-- A request writes what its rows write as they are staged. -/
theorem writes_iff {n : Node σ} {req : EnlistRequest σ} {state : σ} {writes : List RowWrite} :
    n.Writes req state writes ↔ writes = n.writesOf (.request req state) := by
  have hending := n.enlist_ending req state
  have hholds : Staged.Holds { batch := { writeSeq := n.state.writeSeq } } [] := fun key => rfl
  simp only [writesOf]
  rcases hr : n.enlist req state with ⟨result, n', state'⟩
  rw [hr] at hending
  have hresult : (n.enlist req state).1 = result := by rw [hr]
  cases hending with
  | rejected he =>
    refine ⟨fun h => ?_, fun h => h ▸ .refused hresult⟩
    cases h with
    | refused => rfl
    | idle hok | enlisted hok => cases hresult.symm.trans hok
  | idle hop =>
    simp only [hop]
    rcases req.unmarshal n.loader with ⟨_ | _, req'⟩
    all_goals
      refine ⟨fun h => ?_, fun h => h ▸ .idle hresult hop⟩
      cases h with
      | refused | idle => rfl
      | enlisted _ _ hsome => cases hop.symm.trans hsome
  | committed hreq hop hstaged hvalid =>
    simp only [hreq, hop]
    constructor
    · intro h
      cases h with
      | refused herror => cases hresult.symm.trans herror
      | idle _ hnone => cases hop.symm.trans hnone
      | enlisted _ hreq' hop' hrows =>
        obtain rfl := Option.some.inj (hop.symm.trans hop')
        obtain rfl := (Prod.mk.inj (hreq.symm.trans hreq')).2
        exact ((rowsWrite_iff hstaged hholds).mp hrows).1
    · rintro rfl
      exact .enlisted hresult hreq hop ((rowsWrite_iff hstaged hholds).mpr ⟨rfl, rfl⟩)

end Node

end Enlistment
