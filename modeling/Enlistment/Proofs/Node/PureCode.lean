import Enlistment.Proofs.Message.Rebuilding
import Enlistment.Proofs.Node.Handling
import Enlistment.Proofs.Node.Batches
import Mathlib.Data.List.Forall2

/-!
# User code without side effects

Processors and predicates that compute from their input alone neither read nor change the state
that they share with their node. If the names in a request stand for such code then what a node
makes of a row does not depend on the node: every loader that knows the names finds the same code,
and the partition of the key matters to nobody but the topology.
-/

namespace Enlistment

variable {σ : Type}

/-! ## Libraries -/

/-- A processor that computes from the entry and the arguments alone. -/
def EntryProcessor.IsPure (p : EntryProcessor σ) : Prop :=
  ∃ run : MutableEntry → List Value → Except CauseChain (Option Value) × MutableEntry,
    ∀ state entry args,
      p.process state entry args = ⟨(run entry args).1, (run entry args).2, state⟩

/-- A predicate that decides from the key and the current value alone. -/
def RowPredicate.IsPure (p : RowPredicate σ) : Prop :=
  ∃ accepts : Value → Option Value → Bool,
    ∀ state key current, p.apply state key current = (accepts key current, state)

/-- A loader of nothing but pure code. -/
structure ClassLoader.IsPure (library : ClassLoader σ) : Prop where
  processor : ∀ name p, library.processor name = some p → p.IsPure
  predicate : ∀ name p, library.predicate name = some p → p.IsPure

/-- A loader of registered code is pure if this code is. -/
theorem ClassLoader.isPure_ofRegistrations {classes : List String}
    {processors : List (String × EntryProcessor σ)} {predicates : List (String × RowPredicate σ)}
    (hprocessors : ∀ entry ∈ processors, entry.2.IsPure)
    (hpredicates : ∀ entry ∈ predicates, entry.2.IsPure) :
    (ofRegistrations classes processors predicates).IsPure := by
  constructor
  · intro name p hp
    obtain ⟨before, after, heq, -⟩ := List.lookup_eq_some_iff.mp hp
    have hmem : (name, p) ∈ processors.reverse := by rw [heq]; simp
    exact hprocessors _ (List.mem_reverse.mp hmem)
  · intro name p hp
    obtain ⟨before, after, heq, -⟩ := List.lookup_eq_some_iff.mp hp
    have hmem : (name, p) ∈ predicates.reverse := by rw [heq]; simp
    exact hpredicates _ (List.mem_reverse.mp hmem)

/-- A loader that finds under a name what a library has there, or nothing. -/
structure ClassLoader.LoadsFrom (loader library : ClassLoader σ) : Prop where
  processor : ∀ name p, loader.processor name = some p → library.processor name = some p
  predicate : ∀ name p, loader.predicate name = some p → library.predicate name = some p

/-! ## Code -/

section

variable {keepBinary : Bool} {loader library : ClassLoader σ}

/-- An invocation that is rebuilt has the processor that the library has under its name. -/
theorem InvokeValue.unmarshal_library (hlibrary : loader.LoadsFrom library) {i i' : InvokeValue σ}
    (h : i.unmarshal keepBinary loader = (.ok (), i')) :
    i.unmarshal true library = (.ok (), i') := by
  obtain ⟨args, p, hargs, hp, rfl⟩ := unmarshal_ok h
  have hargs' := unmarshalEach_unchecked
    (fun _ _ ho => ValueObject.unmarshal_unchecked ho library.hasClass) hargs
  simp only [unmarshal, hargs', hlibrary.processor _ p hp]

/-- A filter that is rebuilt has the predicate that the library has under its class. -/
theorem Filter.unmarshal_library (hlibrary : loader.LoadsFrom library) {f f' : Filter σ}
    (h : f.unmarshal keepBinary loader = (.ok (), f')) : f.unmarshal true library = (.ok (), f') := by
  obtain ⟨kind, operand, className, resolved⟩ := f
  have hoperand : ∀ o, operand = some o → (o.unmarshal keepBinary loader.hasClass).1 = .ok () := by
    rintro o rfl
    rcases hr : o.unmarshal keepBinary loader.hasClass with ⟨_ | _, o'⟩
    · simp only [unmarshal, hr] at h
      cases h
    · rfl
  have hsame : ∀ o, operand = some o →
      o.unmarshal true library.hasClass = (.ok (), (o.unmarshal keepBinary loader.hasClass).2) :=
    fun o ho => ValueObject.unmarshal_unchecked (Prod.ext (hoperand o ho) rfl) _
  cases operand with
  | none =>
    cases className with
    | none => exact h
    | some name =>
      simp only [unmarshal] at h ⊢
      cases hp : loader.predicate name with
      | none =>
        rw [hp] at h
        cases h
      | some p =>
        rw [hp] at h
        simpa only [hlibrary.predicate _ p hp] using h
  | some o =>
    have ho := hoperand o rfl
    have ho' := hsame o rfl
    cases className with
    | none =>
      simp only [unmarshal, ho, ho'] at h ⊢
      exact h
    | some name =>
      simp only [unmarshal, ho, ho'] at h ⊢
      cases hp : loader.predicate name with
      | none =>
        rw [hp] at h
        cases h
      | some p =>
        rw [hp] at h
        simpa only [hlibrary.predicate _ p hp] using h

end

/-! ## Rows -/

/-- A row without the partition of its key. -/
def EnlistedRow.unplaced : EnlistedRow σ → EnlistedRow σ
  | key k => .key { k with partition := 0 }
  | entry k v => .entry { k with partition := 0 } v
  | invoke k i => .invoke { k with partition := 0 } i

/-- A row of the caller on the wire, without the partition of its key. -/
def Row.bare : Row → EnlistedRow σ
  | key k => .key { bytes := some k.encode }
  | entry k v => .entry { bytes := some k.encode } { bytes := some v.encode }
  | invoke k i =>
    .invoke { bytes := some k.encode }
      { processor := i.processor, args := i.args.map fun v => { bytes := some v.encode } }

/-- What every receiver makes of a row of the caller, but for the partition of its key. -/
def Row.received (library : ClassLoader σ) (row : Row) : Except UnmarshalError (EnlistedRow σ) :=
  EnlistRequest.unmarshalRow true library row.bare

/-- A row names no impure code. -/
def EnlistedRow.IsPure : EnlistedRow σ → Prop
  | invoke _ i => ∀ p, i.resolved = some p → p.IsPure
  | _ => True

namespace EnlistRequest

variable {keepBinary : Bool} {loader library : ClassLoader σ}

/-- A row that is rebuilt is rebuilt in this way with the code of the library, and without a
partition as well. -/
theorem unmarshalRow_library (hlibrary : loader.LoadsFrom library) {row row' : EnlistedRow σ}
    (h : unmarshalRow keepBinary loader row = .ok row') :
    unmarshalRow true library row.unplaced = .ok row'.unplaced := by
  have hkey : ∀ {k k' : KeyObject}, k.unmarshal keepBinary loader.hasClass = (.ok (), k') →
      ({ k with partition := 0 } : KeyObject).unmarshal true library.hasClass =
        (.ok (), { k' with partition := 0 }) := by
    intro k k' hk
    have hk' := KeyObject.unmarshal_unchecked hk library.hasClass
    obtain ⟨hresult, rfl⟩ := Prod.mk.inj hk'
    exact Prod.ext hresult rfl
  cases rebuilt_of_unmarshalRow h with
  | key hk => simp only [EnlistedRow.unplaced, unmarshalRow, hkey hk]
  | entry hk hv =>
    simp only [EnlistedRow.unplaced, unmarshalRow, hkey hk,
      ValueObject.unmarshal_unchecked hv library.hasClass]
  | invoke hk hi =>
    simp only [EnlistedRow.unplaced, unmarshalRow, hkey hk,
      InvokeValue.unmarshal_library hlibrary hi]

/-- A row that is rebuilt names code of its loader. -/
theorem unmarshalRow_isPure (hloader : loader.IsPure) {row row' : EnlistedRow σ}
    (h : unmarshalRow keepBinary loader row = .ok row') : row'.IsPure := by
  cases rebuilt_of_unmarshalRow h with
  | key hk => trivial
  | entry hk hv => trivial
  | invoke hk hi =>
    obtain ⟨args, p, -, hp, rfl⟩ := InvokeValue.unmarshal_ok hi
    intro p' hp'
    obtain rfl := Option.some.inj hp'
    exact hloader.processor _ _ hp

/-- A row of the caller that a node has rebuilt. -/
theorem received_of_unmarshalRow (hlibrary : loader.LoadsFrom library) {ctx : MarshalContext}
    {row : Row} {row' : EnlistedRow σ}
    (h : unmarshalRow keepBinary loader (row.form ctx).onWire = .ok row') :
    row.received library = .ok row'.unplaced := by
  have hbare : ((row.form ctx).onWire : EnlistedRow σ).unplaced = row.bare := by
    cases row with
    | key k => rfl
    | entry k v => rfl
    | invoke k i =>
      simp only [Row.bare, Row.form, EnlistedRow.onWire, EnlistedRow.unplaced, InvokeValue.onWire,
        List.map_map]
      rfl
  rw [Row.received, ← hbare]
  exact unmarshalRow_library hlibrary h

end EnlistRequest

/-- A row that is received has the octets of its key. -/
theorem Row.received_keyBytes {library : ClassLoader σ} {row : Row} {r : EnlistedRow σ}
    (h : row.received library = .ok r) : r.keyBytes = row.keyValue.encode := by
  have hkey : r.keyObject.onWire = (row.bare (σ := σ)).keyObject.onWire :=
    EnlistRequest.unmarshalRow_key h
  have hbytes := congrArg (fun k : KeyObject => k.bytes.getD []) hkey
  cases row <;> exact hbytes

/-- A row that is received names code of the library. -/
theorem Row.received_isPure {library : ClassLoader σ} (hlibrary : library.IsPure) {row : Row}
    {r : EnlistedRow σ} (h : row.received library = .ok r) : r.IsPure :=
  EnlistRequest.unmarshalRow_isPure hlibrary h

/-- Rows that are received name code of the library. -/
theorem Row.forall_received_isPure {library : ClassLoader σ} (hlibrary : library.IsPure)
    {rows : List Row} {received : List (EnlistedRow σ)}
    (h : List.Forall₂ (fun row r => row.received library = .ok r) rows received) :
    ∀ r ∈ received, r.IsPure := by
  induction h with
  | nil => exact List.forall_mem_nil _
  | cons hrow _ ih => exact List.forall_mem_cons.mpr ⟨received_isPure hlibrary hrow, ih⟩

/-! ## Filters -/

/-- What every receiver makes of a filter. -/
def Filter.received (library : ClassLoader σ) (f : Filter σ) : Filter σ :=
  (f.marshal.onWire.unmarshal true library).2

/-- A filter names no impure code. -/
def Filter.IsPure (f : Filter σ) : Prop := ∀ p, f.resolved = some p → p.IsPure

/-- A filter that is rebuilt names code of its loader, besides what it named before. -/
theorem Filter.IsPure.unmarshal {f : Filter σ} (h : f.IsPure) {loader : ClassLoader σ}
    (hloader : loader.IsPure) (keepBinary : Bool) : (f.unmarshal keepBinary loader).2.IsPure := by
  intro p hp
  unfold Filter.unmarshal at hp
  dsimp only at hp
  split at hp
  · exact h p hp
  · exact h p hp
  · next name _ _ =>
    split at hp
    · exact h p hp
    · next p' hp' =>
      obtain rfl := Option.some.inj hp
      exact hloader.predicate _ _ hp'

/-- A filter that is received names code of the library. -/
theorem Filter.received_isPure {library : ClassLoader σ} (hlibrary : library.IsPure) (f : Filter σ) :
    (f.received library).IsPure := by
  have hbare : f.marshal.onWire.IsPure := fun p hp => by cases hp
  exact hbare.unmarshal hlibrary true

/-- A pure filter decides from the key and the current value alone. -/
theorem Filter.IsPure.evaluate {f : Filter σ} (h : f.IsPure) (key : Value)
    (current : Option Value) :
    ∃ accepted, ∀ state, f.evaluate state key current = (accepted, state) := by
  unfold Filter.evaluate
  cases f.kind with
  | hasValue => exact ⟨_, fun _ => rfl⟩
  | noValue => exact ⟨_, fun _ => rfl⟩
  | containsValue => exact ⟨_, fun _ => rfl⟩
  | custom =>
    cases hresolved : f.resolved with
    | none => exact ⟨_, fun _ => rfl⟩
    | some p =>
      obtain ⟨accepts, hp⟩ := h p hresolved
      exact ⟨accepts key current, fun state => hp state key current⟩

/-! ## Staging -/

/-- Rows under a pure filter. -/
def ApplyContext.IsPure (ctx : ApplyContext σ) : Prop := ∀ f, ctx.filter = some f → f.IsPure

section

variable {ctx : ApplyContext σ}

/-- The partition of its key makes no difference to what a row does. -/
theorem rowOutcome_unplaced (ctx : ApplyContext σ) (index : Nat) (row : EnlistedRow σ)
    (rival : Option LockVersion) (current : Except EnlistError (Option Value)) (state : σ) :
    rowOutcome ctx index row.unplaced rival current state =
      rowOutcome ctx index row rival current state := by
  have heffect : ∀ op key current state,
      rowEffect op row.unplaced key current state = rowEffect op row key current state := by
    intro op key current state
    cases row <;> cases op <;> rfl
  have hobject : row.unplaced.keyObject = { row.keyObject with partition := 0 } := by
    cases row <;> rfl
  simp only [rowOutcome, acceptedOutcome, heffect, hobject]

/-- The partitions of their keys make no difference to what rows do. -/
theorem stageFrom_unplaced (store : Store) (ctx : ApplyContext σ) (index : Nat)
    (rows : List (EnlistedRow σ)) (s : Staged) (state : σ) :
    stageFrom store ctx index (rows.map EnlistedRow.unplaced) s state =
      stageFrom store ctx index rows s state := by
  induction rows generalizing index s state with
  | nil => rfl
  | cons row rest ih =>
    have hbytes : row.unplaced.keyBytes = row.keyBytes := by cases row <;> rfl
    rw [List.map_cons, stageFrom_cons, stageFrom_cons, hbytes, rowOutcome_unplaced]
    simp only [ih]

/-- The effect of an accepted row with pure code. -/
theorem rowEffect_isPure {row : EnlistedRow σ} (hrow : row.IsPure) (op : Operation) (key : Value)
    (current : Option Value) :
    ∃ effect, ∀ state, rowEffect op row key current state = (effect, state) := by
  by_cases hinvoke : ∃ k i, op = .invoke ∧ row = .invoke k i
  · obtain ⟨k, i, rfl, rfl⟩ := hinvoke
    unfold rowEffect
    dsimp only
    cases hresolved : i.resolved with
    | none => exact ⟨_, fun _ => rfl⟩
    | some p =>
      obtain ⟨run, hp⟩ := hrow p hresolved
      simp only [hp]
      cases (run (.ofCurrent key current) i.argValues).1 with
      | error chain => exact ⟨_, fun _ => rfl⟩
      | ok returned => exact ⟨_, fun _ => rfl⟩
  · unfold rowEffect
    split
    · split <;> exact ⟨_, fun _ => rfl⟩
    all_goals first
      | exact ⟨_, fun _ => rfl⟩
      | exact absurd ⟨_, _, rfl, rfl⟩ hinvoke

/-- A row with pure code does the same in every state of the user code, and leaves this state
as it is. -/
theorem rowOutcome_isPure (hctx : ctx.IsPure) {row : EnlistedRow σ} (hrow : row.IsPure)
    (index : Nat) (rival : Option LockVersion) (current : Except EnlistError (Option Value)) :
    ∃ outcome, ∀ state, rowOutcome ctx index row rival current state = (outcome, state) := by
  unfold rowOutcome
  cases row.keyObject.bytes with
  | none => exact ⟨_, fun _ => rfl⟩
  | some key =>
    cases rival with
    | some owner => exact ⟨_, fun _ => rfl⟩
    | none =>
      unfold acceptedOutcome
      cases current with
      | error e => exact ⟨_, fun _ => rfl⟩
      | ok current =>
        obtain ⟨effect, heffect⟩ :=
          rowEffect_isPure hrow ctx.op (row.keyObject.value.getD .null) current
        cases hfilter : ctx.filter with
        | none => exact ⟨.ok effect, fun state => by simp [heffect]⟩
        | some f =>
          obtain ⟨accepted, haccepted⟩ :=
            (hctx f hfilter).evaluate (row.keyObject.value.getD .null) current
          cases accepted with
          | false => exact ⟨_, fun state => by simp only [Option.map_some, haccepted]; rfl⟩
          | true => exact ⟨.ok effect, fun state => by simp [haccepted, heffect]⟩

/-- Rows with pure code are staged in the same way in every state of the user code, and leave
this state as it is. -/
theorem stageFrom_isPure (hctx : ctx.IsPure) {rows : List (EnlistedRow σ)}
    (hrows : ∀ row ∈ rows, row.IsPure) (store : Store) (index : Nat) (s : Staged) :
    ∃ staged, ∀ state, stageFrom store ctx index rows s state = (staged, state) := by
  induction rows generalizing index s with
  | nil => exact ⟨_, fun _ => rfl⟩
  | cons row rest ih =>
    obtain ⟨hrow, hrest⟩ := List.forall_mem_cons.mp hrows
    obtain ⟨outcome, houtcome⟩ := rowOutcome_isPure hctx hrow index
      (store.rival ctx.lock row.keyBytes) (currentValue store ctx s.batch row.keyBytes)
    simp only [stageFrom_cons, houtcome]
    cases outcome with
    | error e => exact ⟨_, fun _ => rfl⟩
    | ok effect => exact ih hrest (index + 1) _

end

/-! ## Requests -/

/-- What the rows of a request have in common, with its filter as every receiver rebuilds it. -/
def EnlistRequest.receivedContext (library : ClassLoader σ) (req : EnlistRequest σ)
    (op : Operation) : ApplyContext σ :=
  { op, filter := req.filter.map (Filter.received library), snapshot := req.snapshot
    lock := req.lock, needResult := req.needResult }

/-- What the rows of a request have in common names code of the library. -/
theorem EnlistRequest.receivedContext_isPure {library : ClassLoader σ} (hlibrary : library.IsPure)
    (req : EnlistRequest σ) (op : Operation) : (req.receivedContext library op).IsPure := by
  intro f hf
  obtain ⟨f', -, rfl⟩ := Option.map_eq_some_iff.mp hf
  exact f'.received_isPure hlibrary

namespace EnlistRequest

variable {loader library : ClassLoader σ} {req req' : EnlistRequest σ}

/-- A request that is unmarshalled has its filter rebuilt with the code of the library. -/
theorem unmarshal_filter (hlibrary : loader.LoadsFrom library)
    (h : req.unmarshal loader = (.ok (), req')) :
    req'.filter = req.filter.map fun f => (f.unmarshal true library).2 := by
  have hrebuilt : req.unmarshalFilter loader = (.ok (), { req with filter := req'.filter }) := by
    cases unmarshals h with
    | noRows hfilter | rebuilt hfilter => exact hfilter
  unfold unmarshalFilter at hrebuilt
  cases hf : req.filter with
  | none =>
    simp only [hf] at hrebuilt
    have hsame := congrArg EnlistRequest.filter (Prod.mk.inj hrebuilt).2
    exact hsame.symm.trans hf
  | some f =>
    simp only [hf] at hrebuilt
    obtain ⟨hdone, hsame⟩ := Prod.mk.inj hrebuilt
    rw [← congrArg EnlistRequest.filter hsame, Option.map_some,
      Filter.unmarshal_library hlibrary (Prod.ext hdone rfl)]

/-- Rows of the caller that a node has rebuilt one by one. -/
theorem received_of_mapM (hlibrary : loader.LoadsFrom library) {keepBinary : Bool}
    {ctx : MarshalContext} {rows : List Row} {rebuilt : List (EnlistedRow σ)}
    (h : ((rows.map (Row.form ctx)).map EnlistedRow.onWire).mapM (unmarshalRow keepBinary loader) =
      .ok rebuilt) :
    List.Forall₂ (fun row r => row.received library = .ok r) rows
      (rebuilt.map EnlistedRow.unplaced) := by
  induction rows generalizing rebuilt with
  | nil =>
    obtain rfl := Except.ok.inj h
    exact .nil
  | cons row rest ih =>
    rw [List.map_cons, List.map_cons, List.mapM_cons] at h
    cases hrow : unmarshalRow keepBinary loader (row.form (σ := σ) ctx).onWire with
    | error e => simp [hrow, bind, Except.bind] at h
    | ok first =>
      cases hrest : ((rest.map (Row.form ctx)).map EnlistedRow.onWire).mapM
          (unmarshalRow keepBinary loader) with
      | error e =>
        simp only [hrow, hrest, bind, Except.bind] at h
        cases h
      | ok others =>
        simp only [hrow, hrest, bind, Except.bind, pure, Except.pure, Except.ok.injEq] at h
        rw [← h, List.map_cons]
        exact .cons (received_of_unmarshalRow hlibrary hrow) (ih hrest)

/-- What a node makes of a request of a caller, whose rows and filter it has got in wire form: the
rows and the filter are those that every receiver gets. -/
theorem unmarshal_received (hlibrary : loader.LoadsFrom library) {sent : EnlistRequest σ}
    {ctx : MarshalContext} {rows : List Row} {wire : WireRows σ}
    (hconvert : convertRows ctx sent.op rows = .ok wire) (hwire : req.wire = some wire.onWire)
    (hfilter : req.filter = sent.filter.map fun f => f.marshal.onWire)
    (hsnapshot : req.snapshot = sent.snapshot) (hlock : req.lock = sent.lock)
    (hneed : req.needResult = sent.needResult) (h : req.unmarshal loader = (.ok (), req'))
    (op : Operation) :
    req'.applyContext op = sent.receivedContext library op ∧
      List.Forall₂ (fun row r => row.received library = .ok r) rows
        (req'.takeRows.1.map EnlistedRow.unplaced) := by
  constructor
  · have hrebuilt : req'.filter = sent.filter.map (Filter.received library) := by
      rw [unmarshal_filter hlibrary h, hfilter, Option.map_map]
      rfl
    obtain ⟨filter, wire', enlisted, rfl⟩ := unmarshal_eq h
    obtain rfl : filter = sent.filter.map (Filter.received library) := hrebuilt
    simp only [applyContext, receivedContext, hsnapshot, hlock, hneed]
  · rcases unmarshal_takeRows h with ⟨hnone, -⟩ | ⟨wire', hsome, hrows⟩
    · cases hnone.symm.trans hwire
    · obtain rfl := Option.some.inj (hsome.symm.trans hwire)
      rw [splitRows_onWire, splitRows_convertRows hconvert] at hrows
      exact received_of_mapM hlibrary hrows

end EnlistRequest

end Enlistment
