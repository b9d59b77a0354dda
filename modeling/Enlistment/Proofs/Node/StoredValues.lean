import Enlistment.Proofs.Node.Ownership
import Enlistment.Proofs.Node.Sharing

/-!
# Stored values

A value enters a store as octets of a request, which the node has read as a value before, or as the
form of a value that a processor makes. So every value in a store can be read, whatever octets a
node is given, and no row is refused because its current value cannot be read.
-/

namespace Enlistment

variable {σ : Type}

/-- Octets that stand for a value. -/
def Bytes.IsValue (bs : Bytes) : Prop := ∃ v, Value.decode bs = .ok v

/-- The form of a value that fits stands for it. -/
theorem Value.Fits.isValue {v : Value} (h : v.Fits) : v.encode.IsValue := ⟨v, h.decode_encode⟩

/-- Octets that stand for a value, if there are any, are read as one that fits. -/
theorem decodeStored_isValue {bytes : Option Bytes} (h : ∀ bs, bytes = some bs → bs.IsValue) :
    ∃ found, decodeStored bytes = .ok found ∧ ∀ v, found = some v → v.Fits := by
  cases bytes with
  | none => exact ⟨none, rfl, fun v hv => by cases hv⟩
  | some bs =>
    obtain ⟨v, hv⟩ := h bs rfl
    refine ⟨some v, by rw [decodeStored, hv]; rfl, ?_⟩
    intro w hw
    rw [← Option.some.inj hw]
    exact Value.decode_fits hv

/-! ## Stores of values -/

/-- A change that puts no octets but those of a value. -/
def StoreOp.PutsValue : StoreOp → Prop
  | put _ _ value => ∀ bs, value = some bs → bs.IsValue
  | _ => True

/-- All versions of all keys are values, or tombstones. -/
def Store.HoldsValues (s : Store) : Prop :=
  ∀ key, ∀ v ∈ s.versions key, ∀ bs, v.value = some bs → bs.IsValue

namespace Store.HoldsValues

variable {s : Store}

/-- A store without rows holds values. -/
theorem empty : ({} : Store).HoldsValues := fun key v hv => by cases hv

/-- A change that puts no octets but those of a value leaves nothing but values. -/
theorem apply (h : s.HoldsValues) (hs : s.WellFormed) {op : StoreOp} (hop : op.PutsValue) :
    (s.apply op).HoldsValues := by
  intro key v hv
  cases op with
  | put k version value =>
    rw [hs.versions_apply_put] at hv
    split at hv
    · rcases mem_putVersion hv with rfl | hold
      · exact hop
      · exact h k v hold
    · exact h key v hv
  | lock k owner =>
    rw [versions_apply_lock] at hv
    exact h key v hv
  | unlock owner =>
    rw [versions_apply_unlock] at hv
    exact h key v hv
  | vacuum horizon => exact h key v (hs.mem_versions_vacuum hv)

/-- Changes that put no octets but those of values leave nothing but values. -/
theorem foldl_apply (h : s.HoldsValues) (hs : s.WellFormed) {ops : List StoreOp}
    (hops : ∀ op ∈ ops, op.PutsValue) : (ops.foldl Store.apply s).HoldsValues := by
  induction ops generalizing s with
  | nil => exact h
  | cons op rest ih =>
    obtain ⟨hop, hrest⟩ := List.forall_mem_cons.mp hops
    exact ih (h.apply hs hop) (hs.apply op) hrest

/-- What any reader sees is a value. -/
theorem visible (h : s.HoldsValues) (key : Bytes) (snapshot : Option Snapshot) {bs : Bytes}
    (hbs : s.visible key snapshot = some bs) : bs.IsValue := by
  rw [Store.visible, visibleVersion_eq] at hbs
  obtain ⟨v, hv, hvalue⟩ := Option.bind_eq_some_iff.mp hbs
  exact h key v (List.mem_filter.mp (List.mem_of_getLast? hv)).1 bs hvalue

end Store.HoldsValues

/-! ## Rows that make values -/

/-- A processor that makes values that fit out of values that fit. -/
def EntryProcessor.KeepsFit (p : EntryProcessor σ) : Prop :=
  ∀ state (entry : MutableEntry) (args : List Value), entry.key.Fits →
    (∀ v, entry.value = some v → v.Fits) → (∀ v ∈ args, v.Fits) →
    ∀ v, (p.process state entry args).entry.value = some v → v.Fits

/-- A loader of such processors. -/
def ClassLoader.KeepsFit (loader : ClassLoader σ) : Prop :=
  ∀ name p, loader.processor name = some p → p.KeepsFit

/-- A row that stores no octets but those of a value. -/
def EnlistedRow.MakesValues : EnlistedRow σ → Prop
  | key _ => True
  | entry _ v => (storedBytes v).IsValue
  | invoke k i => (∀ v, k.value = some v → v.Fits) ∧ (∀ v ∈ i.argValues, v.Fits) ∧
    ∀ p, i.resolved = some p → p.KeepsFit

/-- The octets that a row writes are those of its value, or the form of the value that its processor
has left in the entry. -/
theorem rowEffect_written {op : Operation} {row : EnlistedRow σ} {key : Value}
    {current : Option Value} {state : σ} {bs : Bytes}
    (h : (rowEffect op row key current state).1.written = some (some bs)) :
    (∃ k v, row = .entry k v ∧ bs = storedBytes v) ∨
      ∃ k i p v, row = .invoke k i ∧ i.resolved = some p ∧
        (p.process state (.ofCurrent key current) i.argValues).entry.value = some v ∧
        bs = v.encode := by
  unfold rowEffect at h
  split at h
  · next k v =>
    split at h
    · cases h
    · exact .inl ⟨k, v, rfl, (Option.some.inj (Option.some.inj h)).symm⟩
  · next k v =>
    dsimp only [RowEffect.applied] at h
    split at h
    · exact .inl ⟨k, v, rfl, (Option.some.inj (Option.some.inj h)).symm⟩
    · cases h
  · next k v => exact .inl ⟨k, v, rfl, (Option.some.inj (Option.some.inj h)).symm⟩
  · dsimp only [RowEffect.applied] at h
    split at h <;> cases h
  · cases h
  · next k i =>
    split at h
    · cases h
    · next p hp =>
      dsimp only at h
      split at h
      · cases h
      · dsimp only [RowEffect.applied] at h
        split at h
        · obtain ⟨v, hv, hencode⟩ := Option.map_eq_some_iff.mp (Option.some.inj h)
          exact .inr ⟨k, i, p, v, rfl, hp, hv, hencode.symm⟩
        · cases h
  · cases h

/-- An accepted row writes a value. -/
theorem rowEffect_isValue {row : EnlistedRow σ} (hrow : row.MakesValues) (op : Operation)
    {current : Option Value} (hcurrent : ∀ v, current = some v → v.Fits) (state : σ) {bs : Bytes}
    (h : (rowEffect op row (row.keyObject.value.getD .null) current state).1.written =
      some (some bs)) : bs.IsValue := by
  obtain ⟨k, v, rfl, rfl⟩ | ⟨k, i, p, v, rfl, hp, hv, rfl⟩ := rowEffect_written h
  · exact hrow
  · obtain ⟨hkey, hargs, hcode⟩ := hrow
    have hfits : (k.value.getD .null).Fits := by
      cases hvalue : k.value with
      | none => trivial
      | some key => exact hkey key hvalue
    exact (hcode p hp state _ _ hfits hcurrent hargs v hv).isValue

/-- A row whose current value can be read can be tried, and writes a value. -/
theorem rowOutcome_isValue {row : EnlistedRow σ} (hrow : row.MakesValues) (ctx : ApplyContext σ)
    (index : Nat) (rival : Option LockVersion) {current : Option Value}
    (hcurrent : ∀ v, current = some v → v.Fits) (state : σ) :
    ∃ effect state', rowOutcome ctx index row rival (.ok current) state = (.ok effect, state') ∧
      ∀ bs, effect.written = some (some bs) → bs.IsValue := by
  unfold rowOutcome
  cases row.keyObject.bytes with
  | none => exact ⟨_, _, rfl, fun bs hbs => by cases hbs⟩
  | some key =>
    cases rival with
    | some owner => exact ⟨_, _, rfl, fun bs hbs => by cases hbs⟩
    | none =>
      unfold acceptedOutcome
      dsimp only
      split
      · exact ⟨_, _, rfl, fun bs hbs => by cases hbs⟩
      · exact ⟨_, _, rfl, fun bs hbs => rowEffect_isValue hrow ctx.op hcurrent _ hbs⟩

/-! ## Staging -/

/-- What is staged is values. -/
structure Staged.HoldsValues (s : Staged) : Prop where
  writes : ∀ key bs, s.batch.writes.get? key = some (some bs) → bs.IsValue
  ops : ∀ op ∈ s.batch.ops, op.PutsValue

/-- A row that writes a value keeps what is staged values. -/
theorem Staged.HoldsValues.add {s : Staged} (h : s.HoldsValues) (ctx : ApplyContext σ)
    (index : Nat) (key : Bytes) {effect : RowEffect}
    (heffect : ∀ bs, effect.written = some (some bs) → bs.IsValue) :
    (s.add ctx index key effect).HoldsValues := by
  have hlocked : ∀ op ∈ if effect.locks = true then [StoreOp.lock key ctx.lock] else [],
      op.PutsValue := by
    intro op hop
    split at hop
    · rw [List.mem_singleton.mp hop]
      trivial
    · cases hop
  constructor
  · intro key' bs hbs
    rw [get?_writes_add] at hbs
    split at hbs
    · rcases Option.or_eq_some_iff.mp hbs with hwritten | ⟨-, hold⟩
      · exact heffect bs hwritten
      · exact h.writes key' bs hold
    · exact h.writes key' bs hbs
  · intro op hop
    unfold Staged.add at hop
    cases hwritten : effect.written with
    | none =>
      simp only [hwritten, List.mem_append] at hop
      exact hop.elim (h.ops op) (hlocked op)
    | some value =>
      simp only [hwritten, List.mem_append, List.mem_singleton] at hop
      rcases hop with (hold | hlock) | rfl
      · exact h.ops op hold
      · exact hlocked op hlock
      · rintro bs rfl
        exact heffect bs hwritten

/-- Rows that make values can all be staged on a store of values, and what is staged is values. The
induction is on the rows. -/
theorem stageFrom_holdsValues {store : Store} (hstore : store.HoldsValues) (ctx : ApplyContext σ)
    {rows : List (EnlistedRow σ)} (hrows : ∀ row ∈ rows, row.MakesValues) (index : Nat)
    {s : Staged} (hs : s.HoldsValues) (state : σ) :
    ∃ staged state', stageFrom store ctx index rows s state = (.ok staged, state') ∧
      staged.HoldsValues := by
  induction rows generalizing index s state with
  | nil => exact ⟨s, state, rfl, hs⟩
  | cons row rest ih =>
    obtain ⟨hrow, hrest⟩ := List.forall_mem_cons.mp hrows
    have hread : ∃ found, currentValue store ctx s.batch row.keyBytes = .ok found ∧
        ∀ v, found = some v → v.Fits := by
      unfold currentValue
      split
      · next staged hstaged =>
        exact decodeStored_isValue fun bs hbs => hs.writes row.keyBytes bs (hbs ▸ hstaged)
      · exact decodeStored_isValue fun bs hbs => hstore.visible _ _ hbs
    obtain ⟨found, hcurrent, hfits⟩ := hread
    obtain ⟨effect, next, heffect, hwritten⟩ := rowOutcome_isValue hrow ctx index
      (store.rival ctx.lock row.keyBytes) hfits state
    rw [stageFrom_cons, hcurrent, heffect]
    exact ih hrest (index + 1) (hs.add ctx index row.keyBytes hwritten) next

/-- A batch of rows that make values is staged on a store of values, and leaves one. -/
theorem NodeState.stageRows_holdsValues {s : NodeState} (hstore : s.store.HoldsValues)
    (ctx : ApplyContext σ) {rows : List (EnlistedRow σ)} (hrows : ∀ row ∈ rows, row.MakesValues)
    (state : σ) :
    ∃ staged state', s.stageRows ctx rows state = (.ok staged, state') ∧ staged.HoldsValues := by
  refine stageFrom_holdsValues hstore ctx hrows 0 ⟨fun key bs hbs => ?_, fun op hop => ?_⟩ state
  · cases hbs
  · cases hop

/-! ## Rows from the wire -/

/-- A value that is rebuilt from octets stands for them, and fits. -/
theorem rebuildValue_onWire {keepBinary : Bool} {hasClass : String → Bool} {bytes : Option Bytes}
    {value : Option Value} (h : rebuildValue keepBinary hasClass bytes none = (.ok (), value)) :
    ∃ bs v, bytes = some bs ∧ value = some v ∧ Value.decode bs = .ok v := by
  unfold rebuildValue at h
  dsimp only at h
  cases bytes with
  | none => cases h
  | some bs =>
    cases hdecode : Value.decode bs with
    | error e =>
      simp only [hdecode] at h
      cases h
    | ok v =>
      simp only [hdecode] at h
      exact ⟨bs, v, rfl, (Prod.mk.inj h).2.symm, hdecode⟩

/-- A key that is rebuilt from octets fits. -/
theorem KeyObject.fits_of_onWire {keepBinary : Bool} {hasClass : String → Bool} {k k' : KeyObject}
    (h : k.onWire.unmarshal keepBinary hasClass = (.ok (), k')) :
    ∀ v, k'.value = some v → v.Fits := by
  intro v hv
  obtain ⟨hdone, rfl⟩ := Prod.mk.inj h
  obtain ⟨bs, w, -, hw, hdecode⟩ := rebuildValue_onWire (Prod.ext hdone rfl)
  obtain rfl := Option.some.inj (hw.symm.trans hv)
  exact Value.decode_fits hdecode

/-- A value that is rebuilt from octets fits, and these octets stand for it. -/
theorem ValueObject.fits_of_onWire {keepBinary : Bool} {hasClass : String → Bool}
    {o o' : ValueObject} (h : o.onWire.unmarshal keepBinary hasClass = (.ok (), o')) :
    (storedBytes o').IsValue ∧ ∀ v, o'.value = some v → v.Fits := by
  obtain ⟨hdone, rfl⟩ := Prod.mk.inj h
  obtain ⟨bs, w, hbytes, hw, hdecode⟩ := rebuildValue_onWire (Prod.ext hdone rfl)
  have hstored : storedBytes { o.onWire with
      value := (rebuildValue keepBinary hasClass o.onWire.bytes none).2 } = bs := by
    simp only [storedBytes, hbytes]
  refine ⟨⟨w, hstored ▸ hdecode⟩, fun v hv => ?_⟩
  obtain rfl := Option.some.inj (hw.symm.trans hv)
  exact Value.decode_fits hdecode

/-- Arguments that are rebuilt from octets fit. -/
theorem unmarshalEach_onWire {keepBinary : Bool} {hasClass : String → Bool}
    {args args' : List ValueObject}
    (h : unmarshalEach (ValueObject.unmarshal keepBinary hasClass) (args.map ValueObject.onWire) =
      (.ok (), args')) : ∀ o ∈ args', ∀ v, o.value = some v → v.Fits := by
  induction args generalizing args' with
  | nil =>
    obtain rfl := (Prod.mk.inj h).2
    exact List.forall_mem_nil _
  | cons o rest ih =>
    rw [List.map_cons] at h
    unfold unmarshalEach at h
    rcases ho : o.onWire.unmarshal keepBinary hasClass with ⟨_ | _, o'⟩ <;> rw [ho] at h
    · cases h
    · obtain ⟨hresult, rfl⟩ := Prod.mk.inj h
      exact List.forall_mem_cons.mpr
        ⟨(ValueObject.fits_of_onWire ho).2, ih (Prod.ext hresult rfl)⟩

namespace EnlistRequest

/-- A row that is rebuilt from octets makes values. -/
theorem unmarshalRow_makesValues {keepBinary : Bool} {loader : ClassLoader σ}
    (hloader : loader.KeepsFit) {row row' : EnlistedRow σ}
    (h : unmarshalRow keepBinary loader row.onWire = .ok row') : row'.MakesValues := by
  cases row with
  | key k =>
    cases rebuilt_of_unmarshalRow h
    trivial
  | entry k o =>
    cases rebuilt_of_unmarshalRow h with
    | entry hk ho => exact (ValueObject.fits_of_onWire ho).1
  | invoke k i =>
    cases rebuilt_of_unmarshalRow h with
    | invoke hk hi =>
      obtain ⟨args, p, hargs, hp, rfl⟩ := InvokeValue.unmarshal_ok hi
      refine ⟨KeyObject.fits_of_onWire hk, fun v hv => ?_, fun p' hp' => ?_⟩
      · obtain ⟨o, ho, hvalue⟩ := List.mem_filterMap.mp hv
        exact unmarshalEach_onWire hargs o ho v hvalue
      · obtain rfl := Option.some.inj hp'
        exact hloader _ _ hp

/-- The rows of a request that was read make values. -/
theorem unmarshal_makesValues {req req' : EnlistRequest σ} {loader : ClassLoader σ}
    (hloader : loader.KeepsFit) (hread : req.onWire = req)
    (h : req.unmarshal loader = (.ok (), req')) : ∀ row ∈ req'.takeRows.1, row.MakesValues := by
  rcases unmarshal_takeRows h with ⟨-, hrows⟩ | ⟨rows, hwire, hrows⟩
  · have hnone : req.enlisted = none := (congrArg EnlistRequest.enlisted hread).symm
    rw [hrows, takeRows, hnone]
    exact List.forall_mem_nil _
  · have hbare : rows.onWire = rows := by
      have hsame : req.wire.map WireRows.onWire = req.wire := congrArg EnlistRequest.wire hread
      rw [hwire] at hsame
      exact Option.some.inj hsame
    intro row hrow
    obtain ⟨before, hbefore, hrebuilt⟩ := exists_mem_of_mapM hrows row hrow
    rw [← hbare, splitRows_onWire] at hbefore
    obtain ⟨bare, -, rfl⟩ := List.mem_map.mp hbefore
    exact unmarshalRow_makesValues hloader hrebuilt

end EnlistRequest

/-! ## Runs on octets -/

/-- Something that a node is given. -/
inductive NodeInput (σ : Type) where
  /-- Octets, in a state of the user code and the topology. They need not be a request. -/
  | octets (payload : Bytes) (state : σ)
  /-- A transaction is finished. -/
  | finish (lock : LockVersion)
  | vacuum (horizon : EntryVersion)

namespace Node

/-- A request that a node has read is as it goes on the wire. -/
theorem decodeRequest_onWire {n : Node σ} {payload : Bytes} {req : EnlistRequest σ}
    (h : n.decodeRequest payload = .ok req) : req.onWire = req := by
  simp only [decodeRequest] at h
  split at h
  · cases h
  · rw [← Except.ok.inj h]
    exact EnlistRequest.onWire_ofRecord _
  · cases h

variable [HasTopology σ]

/-- The node after it was given something. -/
def receive (n : Node σ) : NodeInput σ → Node σ
  | .octets payload state => (n.handleBytes payload state).2.1
  | .finish lock => (n.finishTransaction lock).2
  | .vacuum horizon => n.vacuum horizon

/-- The node after it was given some things, one after the other. -/
def receiveAll (n : Node σ) (inputs : List (NodeInput σ)) : Node σ := inputs.foldl receive n

/-- What a node is given does nothing, or it is an action, where a request is one that was read. -/
theorem receive_cases (n : Node σ) (input : NodeInput σ) :
    n.receive input = n ∨ ∃ action, n.receive input = n.perform action ∧
      ∀ req state, action = .request req state → req.onWire = req := by
  cases input with
  | octets payload state =>
    cases hread : n.decodeRequest payload with
    | error e => exact .inl (by simp only [receive, handleBytes, hread])
    | ok req =>
      refine .inr ⟨.request req state, by simp only [receive, handleBytes, hread, perform], ?_⟩
      intro req' state' heq
      obtain ⟨rfl, -⟩ := NodeAction.request.inj heq
      exact decodeRequest_onWire hread
  | finish lock => exact .inr ⟨.finish lock, rfl, fun _ _ heq => by cases heq⟩
  | vacuum horizon => exact .inr ⟨.vacuum horizon, rfl, fun _ _ heq => by cases heq⟩

/-- A request that was read leaves a store of values. -/
theorem handleRequest_holdsValues {n : Node σ} (hloader : n.loader.KeepsFit)
    (hformed : n.state.store.WellFormed) (h : n.state.store.HoldsValues) {req : EnlistRequest σ}
    (hread : req.onWire = req) (state : σ) :
    (n.handleRequest req state).2.1.state.store.HoldsValues := by
  rw [handleRequest_committed]
  cases hcommitted : n.committed req state with
  | none => exact h
  | some batch =>
    obtain ⟨req', op, staged, hreq, hstaged, rfl, -⟩ := committed_valid hcommitted
    obtain ⟨staged', state', hstaged', hvalues⟩ := NodeState.stageRows_holdsValues h
      (req'.applyContext op) (EnlistRequest.unmarshal_makesValues hloader hread hreq) state
    obtain rfl : staged = staged' :=
      Except.ok.inj (Prod.mk.inj (hstaged.symm.trans hstaged')).1
    exact h.foldl_apply hformed hvalues.ops

/-- A node with a well-formed store of values, and a given loader. -/
structure Wholesome (loader : ClassLoader σ) (n : Node σ) : Prop where
  loader : n.loader = loader
  formed : n.state.store.WellFormed
  values : n.state.store.HoldsValues

/-- Whatever a node is given leaves a store of values. -/
theorem Wholesome.receive {loader : ClassLoader σ} {n : Node σ} (h : n.Wholesome loader)
    (hloader : loader.KeepsFit) (input : NodeInput σ) : (n.receive input).Wholesome loader := by
  rcases n.receive_cases input with hsame | ⟨action, hsame, hread⟩
  · rw [hsame]
    exact h
  · rw [hsame]
    refine ⟨by rw [perform_eq]; exact h.loader, wellFormed_perform h.formed action, ?_⟩
    cases action with
    | request req state =>
      have hknown : n.loader.KeepsFit := h.loader ▸ hloader
      exact handleRequest_holdsValues hknown h.formed h.values (hread req state rfl) state
    | finish lock =>
      have hop : (StoreOp.unlock lock).PutsValue := trivial
      exact h.values.apply h.formed hop
    | vacuum horizon =>
      have hop : (StoreOp.vacuum horizon).PutsValue := trivial
      exact h.values.apply h.formed hop

/-- Whatever a node is given in a run leaves a store of values. -/
theorem Wholesome.receiveAll {loader : ClassLoader σ} {n : Node σ} (h : n.Wholesome loader)
    (hloader : loader.KeepsFit) (inputs : List (NodeInput σ)) :
    (n.receiveAll inputs).Wholesome loader := by
  unfold Node.receiveAll
  induction inputs generalizing n with
  | nil => exact h
  | cons input rest ih => exact ih (h.receive hloader input)

/-- No row is poisoned. Let a node that started without rows be given any octets, in any states of
the user code and the topology, and let locks be released and its store be vacuumed in between. As
long as processors make no values that are too long for any machine out of values that are not, all
versions of all keys are values that can be read. So every reader can read every key, and the rows
of a request that was read are staged whatever is stored. -/
theorem receiveAll_stores_values {start n : Node σ} {inputs : List (NodeInput σ)}
    (hstart : start.state = {}) (hn : start.receiveAll inputs = n)
    (hloader : start.loader.KeepsFit) :
    (∀ key, ∀ v ∈ n.state.store.versions key, ∀ bs, v.value = some bs →
        ∃ w, Value.decode bs = .ok w) ∧
      (∀ key snapshot, ∃ found, n.state.get key snapshot = .ok found) ∧
      ∀ payload req req', n.decodeRequest payload = .ok req →
        req.unmarshal n.loader = (.ok (), req') → ∀ op state, ∃ staged state',
          n.state.stageRows (req'.applyContext op) req'.takeRows.1 state =
            (.ok staged, state') := by
  have hempty : start.Wholesome start.loader := by
    refine ⟨rfl, ?_, ?_⟩ <;> rw [hstart]
    · exact Store.WellFormed.empty
    · exact Store.HoldsValues.empty
  obtain ⟨hsame, -, hvalues⟩ : n.Wholesome start.loader :=
    hn ▸ hempty.receiveAll hloader inputs
  refine ⟨hvalues, fun key snapshot => ?_, fun payload req req' hread hreq op state => ?_⟩
  · have hseen : ∀ bs, n.state.store.visible key.encode snapshot = some bs → bs.IsValue :=
      fun bs hbs => hvalues.visible _ _ hbs
    obtain ⟨found, hfound, -⟩ := decodeStored_isValue hseen
    exact ⟨found, hfound⟩
  · have hrows := EnlistRequest.unmarshal_makesValues (hsame ▸ hloader)
      (decodeRequest_onWire hread) hreq
    obtain ⟨staged, state', hstaged, -⟩ :=
      NodeState.stageRows_holdsValues hvalues (req'.applyContext op) hrows state
    exact ⟨staged, state', hstaged⟩

/-- A processor stores its argument, between octets that are no request and a vacuum. -/
theorem receiveAll_stores_argument :
    let view := TopologyView.ofNodes [1] 1
    let assign : EntryProcessor TopologyView := ⟨fun view entry args =>
      ⟨.ok entry.value, (args.head?.map entry.setValue).getD entry, view⟩⟩
    let start : Node TopologyView :=
      { id := 1, config := {}, loader := .ofRegistrations [] [("A", assign)] []
        context := .ofCache 1 1 }
    let keys := [KeyObject.ofKey start.context (.int 3)]
    let request : EnlistRequest TopologyView :=
      { base := { cacheId := 1 }, topology := ⟨1, 0⟩, op := some .invoke }
    let wire : WireRows TopologyView := .invokes keys [.ofInvocation ⟨"A", [.int 5]⟩]
    let payload : Draft := ⟨.request, WireForm.toRecord { request with wire := some wire }⟩
    let inputs : List (NodeInput TopologyView) :=
      [.octets [0, 1, 2] view, .octets payload.encode view, .vacuum ⟨0, 2⟩]
    let n := start.receiveAll inputs
    start.loader.KeepsFit ∧ n.state.get (.int 3) none = .ok (some (.int 5)) ∧
      ∀ key snapshot, ∃ found, n.state.get key snapshot = .ok found := by
  intro view assign start keys request wire payload inputs n
  have hassign : assign.KeepsFit := by
    intro state entry args _ hvalue hargs v hv
    cases args with
    | nil => exact hvalue v hv
    | cons arg rest =>
      obtain rfl := Option.some.inj hv
      exact hargs arg List.mem_cons_self
  have hloader : start.loader.KeepsFit := by
    intro name p hp
    obtain ⟨before, after, heq, -⟩ := List.lookup_eq_some_iff.mp hp
    have hmem : (name, p) ∈ [("A", assign)].reverse := by
      rw [heq]
      exact List.mem_append_right _ List.mem_cons_self
    obtain ⟨-, rfl⟩ := Prod.mk.inj (List.mem_singleton.mp hmem)
    exact hassign
  have hget : n.state.get (.int 3) none = .ok (some (.int 5)) := by decide +kernel
  have hn : start.receiveAll inputs = n := rfl
  clear_value n inputs
  obtain ⟨-, hread, -⟩ := receiveAll_stores_values rfl hn hloader
  exact ⟨hloader, hget, hread⟩

end Node

end Enlistment
