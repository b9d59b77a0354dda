import Enlistment.Proofs.Node.Ownership
import Enlistment.Proofs.Node.Sharing

/-!
# Independent requests

A request reads and changes nothing but the locks and the values of the keys that it declares, and
the number of the last write. So two nodes that agree on these keys handle it alike, and it makes no
difference to requests for other keys whether they come before it or after it.
-/

namespace Enlistment

variable {σ : Type}

/-! ## Staging on stores that agree -/

/-- Two attempts to stage rows that end alike: they fail alike, or tell the same and agree on the
owned keys. -/
inductive Staged.Alike (own : Bytes → Bool) (a b : Store) :
    Except EnlistError Staged × σ → Except EnlistError Staged × σ → Prop
  | error {e : EnlistError} {state : σ} : Alike own a b (.error e, state) (.error e, state)
  | ok {s t : Staged} {state : σ} (houtcome : t.outcome = s.outcome) (h : s.AgreeOn own a b t) :
    Alike own a b (.ok s, state) (.ok t, state)

/-- What is told about a row does not depend on the store. -/
theorem Staged.outcome_add {s t : Staged} (h : t.outcome = s.outcome) (ctx : ApplyContext σ)
    (index : Nat) (key : Bytes) (effect : RowEffect) :
    (t.add ctx index key effect).outcome = (s.add ctx index key effect).outcome := by
  unfold add
  cases effect.written <;> simp only [h]

section

variable {ctx : ApplyContext σ} {own : Bytes → Bool} {a b : Store}

/-- Rows of owned keys are staged alike on stores that agree on these keys. The induction is on the
rows; what is staged agrees on the owned keys after each row. -/
theorem stageFrom_alike (hlocks : ∀ key, own key = true → b.lockOwner key = a.lockOwner key)
    (hvisible : ∀ key, own key = true → b.visible key ctx.snapshot = a.visible key ctx.snapshot)
    {rows : List (EnlistedRow σ)}
    (hrows : ∀ row ∈ rows, ∀ key, row.keyObject.bytes = some key → own key = true) (index : Nat)
    {s t : Staged} (h : s.AgreeOn own a b t) (houtcome : t.outcome = s.outcome) (state : σ) :
    Staged.Alike own a b (stageFrom a ctx index rows s state)
      (stageFrom b ctx index rows t state) := by
  induction rows generalizing index s t state with
  | nil => exact .ok houtcome h
  | cons row rest ih =>
    obtain ⟨hrow, hrest⟩ := List.forall_mem_cons.mp hrows
    have hsame : rowOutcome ctx index row (b.rival ctx.lock row.keyBytes)
        (currentValue b ctx t.batch row.keyBytes) state =
        rowOutcome ctx index row (a.rival ctx.lock row.keyBytes)
          (currentValue a ctx s.batch row.keyBytes) state := by
      cases hbytes : row.keyObject.bytes with
      | none => simp only [rowOutcome, hbytes]
      | some key =>
        have howned := hrow key hbytes
        rw [EnlistedRow.keyBytes_eq hbytes, Store.rival, hlocks key howned, Store.rival,
          currentValue_eq, currentValue_eq, h.writes key howned, hvisible key howned]
    rw [stageFrom_cons, stageFrom_cons, hsame]
    rcases rowOutcome ctx index row (a.rival ctx.lock row.keyBytes)
      (currentValue a ctx s.batch row.keyBytes) state with ⟨e | effect, next⟩
    · exact .error
    · exact ih hrest (index + 1) (h.add ctx index index row.keyBytes (.refl effect))
        (Staged.outcome_add houtcome ctx index row.keyBytes effect) next

end

/-! ## The keys and the code of a request -/

namespace EnlistRequest

/-- The keys that a request declares, as octets. -/
def footprint (req : EnlistRequest σ) : List Bytes := req.declaredKeys.filterMap KeyObject.bytes

/-- The rows that are rebuilt have declared keys. -/
theorem mem_footprint {req req' : EnlistRequest σ} {loader : ClassLoader σ}
    (h : req.unmarshal loader = (.ok (), req')) {row : EnlistedRow σ} (hrow : row ∈ req'.takeRows.1)
    {key : Bytes} (hkey : row.keyObject.bytes = some key) : key ∈ req.footprint := by
  obtain ⟨k, hk, hwire⟩ := unmarshal_declares h hrow
  obtain ⟨-, hbytes, -⟩ := KeyObject.mk.inj hwire
  exact List.mem_filterMap.mpr ⟨k, hk, hbytes.trans hkey⟩

/-- The code that a request runs, once a loader has rebuilt it, is pure. -/
def RunsPure (req : EnlistRequest σ) (loader : ClassLoader σ) : Prop :=
  ∀ req', req.unmarshal loader = (.ok (), req') →
    (∀ op, (req'.applyContext op).IsPure) ∧ ∀ row ∈ req'.takeRows.1, row.IsPure

/-- A request that comes without impure code runs pure code if its loader has no other. -/
theorem runsPure {req : EnlistRequest σ} {loader : ClassLoader σ} (hloader : loader.IsPure)
    (hfilter : ∀ f, req.filter = some f → f.IsPure)
    (hrows : req.wire = none → ∀ row ∈ req.takeRows.1, row.IsPure) : req.RunsPure loader := by
  intro req' h
  constructor
  · intro op f hf
    have hsame : loader.LoadsFrom loader := ⟨fun _ _ hp => hp, fun _ _ hp => hp⟩
    have hrebuilt : req'.filter = some f := hf
    rw [unmarshal_filter hsame h] at hrebuilt
    obtain ⟨before, hbefore, rfl⟩ := Option.map_eq_some_iff.mp hrebuilt
    exact (hfilter before hbefore).unmarshal hloader true
  · rcases unmarshal_takeRows h with ⟨hwire, hsame⟩ | ⟨wire, -, hrebuilt⟩
    · rw [hsame]
      exact hrows hwire
    · intro row hrow
      obtain ⟨before, -, hbefore⟩ := exists_mem_of_mapM hrebuilt row hrow
      exact unmarshalRow_isPure hloader hbefore

end EnlistRequest

/-! ## Nodes that agree -/

namespace Node

variable [HasTopology σ]

/-- What becomes of a request before its rows are staged. The state of the node has no say in it. -/
inductive Admission (n : Node σ) (req : EnlistRequest σ) (state : σ) : Prop
  | refused {e : EnlistError} (h : ∀ s : NodeState,
      ({ n with state := s } : Node σ).enlist req state = (.error e, { n with state := s }, state))
  | idle (h : ∀ s : NodeState,
      ({ n with state := s } : Node σ).enlist req state = (.ok {}, { n with state := s }, state))
  | admitted {req' : EnlistRequest σ} {op : Operation}
      (hreq : req.unmarshal n.loader = (.ok (), req'))
      (hmode : req'.snapshot.isSome = n.config.mvccEnabled)
      (h : ∀ s : NodeState, ({ n with state := s } : Node σ).enlist req state =
        ({ n with state := s } : Node σ).applyRows req' op req'.takeRows.1 state)

/-- Every request is refused, has no operation or is admitted. -/
theorem admission (n : Node σ) (req : EnlistRequest σ) (state : σ) : n.Admission req state := by
  have hpre : ∀ s : NodeState,
      ({ n with state := s } : Node σ).precheck req state = n.precheck req state := fun _ => rfl
  cases hchecked : n.precheck req state with
  | error e => exact .refused fun s => by simp only [enlist, hpre, hchecked]; rfl
  | ok _ =>
    rcases hreq : req.unmarshal n.loader with ⟨cause | _, req'⟩
    · exact .refused fun s => by simp only [enlist, hpre, hchecked, hreq]; rfl
    · cases hvalid : (HasTopology.topology state).validate req'.topology
          (req'.takeRows.1.map fun row => row.keyObject.partition) n.id with
      | error e =>
        exact .refused fun s => by simp only [enlist, hpre, hchecked, hreq, hvalid]; rfl
      | ok _ =>
        cases hop : req'.op with
        | none => exact .idle fun s => by simp only [enlist, hpre, hchecked, hreq, hvalid, hop]
        | some op =>
          have hmode : req'.snapshot.isSome = n.config.mvccEnabled := by
            obtain ⟨filter, wire, enlisted, rfl⟩ := EnlistRequest.unmarshal_eq hreq
            exact precheck_ok_snapshot hchecked
          have hadmitted : ∀ s : NodeState, ({ n with state := s } : Node σ).enlist req state =
              ({ n with state := s } : Node σ).applyRows req' op req'.takeRows.1 state := by
            intro s
            simp only [enlist, hpre, hchecked, hreq, hvalid, hop]
          exact .admitted hreq hmode hadmitted

/-- A request that runs pure code leaves the state of the user code as it is. -/
theorem enlist_pure {n : Node σ} {req : EnlistRequest σ} (h : req.RunsPure n.loader) (state : σ) :
    (n.enlist req state).2.2 = state := by
  cases n.admission req state with
  | refused hrefused => rw [show n.enlist req state = _ from hrefused n.state]
  | idle hidle => rw [show n.enlist req state = _ from hidle n.state]
  | @admitted req' op hreq hmode hadmitted =>
    obtain ⟨hctx, hrows⟩ := h req' hreq
    obtain ⟨outcome, houtcome⟩ := stageFrom_isPure (hctx op) hrows n.state.store 0
      { batch := { writeSeq := n.state.writeSeq } }
    have hstaged : n.state.stageRows (req'.applyContext op) req'.takeRows.1 state =
        (outcome, state) := houtcome state
    rw [show n.enlist req state = _ from hadmitted n.state]
    unfold EnlistRequest.applyContext at hstaged
    simp only [applyRows, hstaged]
    cases outcome with
    | error e => rfl
    | ok staged => dsimp only; split <;> rfl

/-- Nodes that differ in their states alone, and agree on the keys of a request, handle it alike and
still agree on these keys. -/
theorem enlist_alike {n : Node σ} {s : NodeState} {own : Bytes → Bool} {count count' : Nat}
    {req : EnlistRequest σ} (h : n.state.AgreeOn own n.config.mvccEnabled s)
    (hn : n.state.Ordered n.config.mvccEnabled count) (hs : s.Ordered n.config.mvccEnabled count')
    (hroom : n.config.mvccEnabled = false → count + req.declaredKeys.length < 2 ^ 63)
    (hroom' : n.config.mvccEnabled = false → count' + req.declaredKeys.length < 2 ^ 63)
    (hown : ∀ key ∈ req.footprint, own key = true) (state : σ) :
    let r := n.enlist req state
    let r' := ({ n with state := s } : Node σ).enlist req state
    r'.1 = r.1 ∧ r'.2.2 = r.2.2 ∧ r.2.1.state.AgreeOn own n.config.mvccEnabled r'.2.1.state := by
  intro r r'
  cases n.admission req state with
  | refused hrefused =>
    have hr : r = _ := hrefused n.state
    have hr' : r' = _ := hrefused s
    rw [hr, hr']
    exact ⟨rfl, rfl, h⟩
  | idle hidle =>
    have hr : r = _ := hidle n.state
    have hr' : r' = _ := hidle s
    rw [hr, hr']
    exact ⟨rfl, rfl, h⟩
  | @admitted req' op hreq hmode hadmitted =>
    have hr : r = n.applyRows req' op req'.takeRows.1 state := hadmitted n.state
    have hr' : r' = ({ n with state := s } : Node σ).applyRows req' op req'.takeRows.1 state :=
      hadmitted s
    have hlength := EnlistRequest.unmarshal_length_le hreq
    have hstaged : Staged.Alike own n.state.store s.store
        (n.state.stageRows (req'.applyContext op) req'.takeRows.1 state)
        (s.stageRows (req'.applyContext op) req'.takeRows.1 state) := by
      have hstart : Staged.AgreeOn own n.state.store s.store
          { batch := { writeSeq := n.state.writeSeq } } { batch := { writeSeq := s.writeSeq } } :=
        ⟨fun _ _ => rfl, fun key hkey => (h key hkey).lockOwner⟩
      refine stageFrom_alike (fun key hkey => (h key hkey).lockOwner) (fun key hkey => ?_)
        (fun row hrow key hkey => hown key (EnlistRequest.mem_footprint hreq hrow hkey)) 0
        hstart rfl state
      rw [← hmode] at h
      exact (h key hkey).visible
    rcases hone : n.state.stageRows (req'.applyContext op) req'.takeRows.1 state with
      ⟨e | one, next⟩ <;>
      rcases htwo : s.stageRows (req'.applyContext op) req'.takeRows.1 state with
        ⟨e' | two, next'⟩ <;>
      rw [hone, htwo] at hstaged <;> cases hstaged
    · rw [hr, hr']
      unfold EnlistRequest.applyContext at hone htwo
      simp only [applyRows, hone, htwo]
      exact ⟨trivial, trivial, h⟩
    · next houtcome hagree =>
      have hafter := h.commit_staged hn hs hmode (fun hplain => by have := hroom hplain; omega)
        (fun hplain => by have := hroom' hplain; omega) hone htwo hagree
      rw [hr, hr']
      unfold EnlistRequest.applyContext at hone htwo
      simp only [applyRows, hone, htwo]
      split
      · exact ⟨rfl, rfl, h⟩
      · exact ⟨congrArg Except.ok houtcome, rfl, hafter⟩

/-- A request makes no difference to keys that it does not declare. -/
theorem enlist_other {n : Node σ} (h : n.state.store.WellFormed) (req : EnlistRequest σ) (state : σ)
    {key : Bytes} (hkey : key ∉ req.footprint) :
    n.state.store.AgreeAt n.config.mvccEnabled (n.enlist req state).2.1.state.store key := by
  have hafter : (n.enlist req state).2.1 = _ := n.handleRequest_committed req state
  rw [hafter]
  cases hcommitted : n.committed req state with
  | none => exact ⟨rfl, rfl, fun _ => rfl⟩
  | some batch =>
    obtain ⟨req', op, staged, hreq, hstaged, rfl, -⟩ := committed_valid hcommitted
    have hother : key ∉ staged.batch.ops.filterMap StoreOp.key? := by
      intro hmem
      rcases stageFrom_keys hstaged hmem with hnone | ⟨row, hrow, hbytes⟩
      · cases hnone
      · exact hkey (EnlistRequest.mem_footprint hreq hrow hbytes)
    obtain ⟨hversions, howner⟩ :=
      foldl_permitted_other (n.state.stageRows_permitted hstaged) hother h
    exact ⟨howner, Store.visible_congr hversions none, fun _ => hversions⟩

/-! ## Reachable nodes -/

/-- The state of a node that started without rows is ordered, as long as there are numbers for the
rows of all requests. -/
theorem ordered_performAll {n : Node σ} (h : n.state = {}) (actions : List (NodeAction σ))
    (hroom : n.config.mvccEnabled = false → (actions.map NodeAction.keys).sum < 2 ^ 63) :
    (n.performAll actions).state.Ordered n.config.mvccEnabled
      (actions.map NodeAction.keys).sum :=
  ⟨wellFormed_performAll h actions,
    fun hplain => (numbered_performAll h hplain actions (hroom hplain)).bounded,
    fun hplain => (numbered_performAll h hplain actions (hroom hplain)).writeSeq_le⟩

/-- An action leaves no key without versions behind. -/
theorem occupied_perform {n : Node σ} (h : n.state.store.Occupied) (action : NodeAction σ) :
    (n.perform action).state.store.Occupied := by
  cases action with
  | request req state =>
    simp only [perform, handleRequest_committed]
    cases n.committed req state with
    | none => exact h
    | some batch => exact h.foldl_apply batch.ops
  | finish lock => exact h.apply (.unlock lock)
  | vacuum horizon => exact h.apply (.vacuum horizon)

/-- A node that started without rows has no key without versions. -/
theorem occupied_performAll {n : Node σ} (h : n.state = {}) (actions : List (NodeAction σ)) :
    (n.performAll actions).state.store.Occupied := by
  refine performAll_invariant (P := fun m => m.state.store.Occupied)
    (fun m action hm => occupied_perform hm action) ?_ actions
  rw [h]
  exact Store.Occupied.empty

/-! ## Either order -/

section

variable {n : Node σ} {count : Nat} {a b : EnlistRequest σ} {state : σ}

/-- A request that comes after one for other keys ends as if it came first, and leaves the same at
all keys but those of the other one. -/
theorem enlist_after (hn : n.state.Ordered n.config.mvccEnabled count)
    (hb : (n.perform (.request b state)).state.Ordered n.config.mvccEnabled
      (count + b.declaredKeys.length))
    (hroom : n.config.mvccEnabled = false →
      count + b.declaredKeys.length + a.declaredKeys.length < 2 ^ 63)
    (hdisjoint : a.footprint.Disjoint b.footprint) :
    let m := n.perform (.request b state)
    (m.enlist a state).1 = (n.enlist a state).1 ∧ ∀ key, key ∉ b.footprint →
      (n.perform (.request a state)).state.store.AgreeAt n.config.mvccEnabled
        (m.perform (.request a state)).state.store key := by
  intro m
  have hm : m = { n with state := m.state } := n.perform_eq _
  have hagree : n.state.AgreeOn (fun key => decide (key ∉ b.footprint)) n.config.mvccEnabled
      m.state := fun key hkey => enlist_other hn.store b state (of_decide_eq_true hkey)
  obtain ⟨houtcome, -, hafter⟩ := enlist_alike hagree hn hb
    (fun hplain => by have := hroom hplain; omega) hroom
    (fun key hkey => decide_eq_true fun hother => hdisjoint hkey hother) state
  rw [← hm] at houtcome hafter
  exact ⟨houtcome, fun key hkey => hafter key (decide_eq_true hkey)⟩

/-- Two requests without common keys leave the same at a key that the second one does not declare,
whichever comes first. -/
theorem perform_either_order (hn : n.state.Ordered n.config.mvccEnabled count)
    (ha : (n.perform (.request a state)).state.store.WellFormed)
    (hb : (n.perform (.request b state)).state.Ordered n.config.mvccEnabled
      (count + b.declaredKeys.length))
    (hroom : n.config.mvccEnabled = false →
      count + b.declaredKeys.length + a.declaredKeys.length < 2 ^ 63)
    (hdisjoint : a.footprint.Disjoint b.footprint) {key : Bytes} (hkey : key ∉ b.footprint) :
    ((n.perform (.request a state)).perform (.request b state)).state.store.AgreeAt
      n.config.mvccEnabled ((n.perform (.request b state)).perform (.request a state)).state.store
        key := by
  have hmode : (n.perform (.request a state)).config.mvccEnabled = n.config.mvccEnabled := by
    rw [perform_eq]
  have hleft := enlist_other ha b state hkey
  rw [hmode] at hleft
  exact hleft.symm.trans ((enlist_after hn hb hroom hdisjoint).2 key hkey)

/-- A request that comes after a pure one for other keys gets the answer it would get first. -/
theorem handleRequest_after (hpure : b.RunsPure n.loader)
    (hn : n.state.Ordered n.config.mvccEnabled count)
    (hb : (n.perform (.request b state)).state.Ordered n.config.mvccEnabled
      (count + b.declaredKeys.length))
    (hroom : n.config.mvccEnabled = false →
      count + b.declaredKeys.length + a.declaredKeys.length < 2 ^ 63)
    (hdisjoint : a.footprint.Disjoint b.footprint) :
    let first := n.handleRequest b state
    let second := first.2.1.handleRequest a first.2.2
    second.1 = (n.handleRequest a state).1 ∧
      second.2.1 = (n.perform (.request b state)).perform (.request a state) := by
  intro first second
  have hstate : first.2.2 = state := enlist_pure hpure state
  have hsecond : second = (n.perform (.request b state)).handleRequest a state :=
    congrArg ((n.perform (.request b state)).handleRequest a) hstate
  rw [hsecond]
  exact ⟨congrArg (respond a) (enlist_after hn hb hroom hdisjoint).1, rfl⟩

end

section

variable {start n : Node σ} {actions : List (NodeAction σ)}

/-- A node that has been reached is reached again after more actions. -/
theorem performAll_reached (hn : start.performAll actions = n) (more : List (NodeAction σ)) :
    n.performAll more = start.performAll (actions ++ more) := by
  rw [← hn, performAll, performAll, performAll, List.foldl_append]

/-- The state of a node that has been reached is ordered after more actions, as long as there are
numbers for the rows of all requests. -/
theorem ordered_reached (hstart : start.state = {}) (hn : start.performAll actions = n)
    (more : List (NodeAction σ)) (hroom : n.config.mvccEnabled = false →
      (actions.map NodeAction.keys).sum + (more.map NodeAction.keys).sum < 2 ^ 63) :
    (n.performAll more).state.Ordered n.config.mvccEnabled
      ((actions.map NodeAction.keys).sum + (more.map NodeAction.keys).sum) := by
  have hconfig : n.config = start.config := by rw [← hn, performAll_config]
  rw [performAll_reached hn, hconfig, ← List.sum_append, ← List.map_append]
  refine ordered_performAll hstart _ fun hplain => ?_
  rw [List.map_append, List.sum_append]
  exact hroom (hconfig ▸ hplain)

/-- Independent requests commute. Let a node that started without rows be asked anything, and let
two requests declare no common key, whatever their operations, locks and snapshots are, and run pure
code. If they are handled one after the other, then each gets the same answer in either order. Both
orders leave the same owner of the lock on every key and the same newest value of every key, and a
node that keeps versions for snapshots is left with the same store. On a node without snapshots
there must be numbers for the rows of all requests. -/
theorem handleRequest_commute (hstart : start.state = {}) (hn : start.performAll actions = n)
    {a b : EnlistRequest σ} (ha : a.RunsPure n.loader) (hb : b.RunsPure n.loader)
    (hdisjoint : a.footprint.Disjoint b.footprint)
    (hroom : n.config.mvccEnabled = false → (actions.map NodeAction.keys).sum +
      a.declaredKeys.length + b.declaredKeys.length < 2 ^ 63) (state : σ) :
    let first := n.handleRequest a state
    let second := first.2.1.handleRequest b first.2.2
    let first' := n.handleRequest b state
    let second' := first'.2.1.handleRequest a first'.2.2
    (first.1 = second'.1 ∧ second.1 = first'.1) ∧
      (∀ key, second.2.1.state.store.lockOwner key = second'.2.1.state.store.lockOwner key) ∧
      (∀ key, second.2.1.state.get key none = second'.2.1.state.get key none) ∧
      (n.config.mvccEnabled = true → second.2.1.state.store = second'.2.1.state.store) := by
  intro first second first' second'
  have hdisjoint' : b.footprint.Disjoint a.footprint := fun _ hmem hmem' => hdisjoint hmem' hmem
  have hroom' : n.config.mvccEnabled = false → (actions.map NodeAction.keys).sum +
      b.declaredKeys.length + a.declaredKeys.length < 2 ^ 63 :=
    fun hplain => by have := hroom hplain; omega
  have hordered : n.state.Ordered n.config.mvccEnabled (actions.map NodeAction.keys).sum :=
    ordered_reached hstart hn [] fun hplain => Nat.lt_of_le_of_lt (by simp; omega) (hroom hplain)
  have hafterA := ordered_reached hstart hn [.request a state] fun hplain =>
    Nat.lt_of_le_of_lt (Nat.le_add_right _ _) (hroom hplain)
  have hafterB := ordered_reached hstart hn [.request b state] fun hplain =>
    Nat.lt_of_le_of_lt (Nat.le_add_right _ _) (hroom' hplain)
  obtain ⟨hanswer, hnode⟩ := handleRequest_after ha hordered hafterA hroom hdisjoint'
  obtain ⟨hanswer', hnode'⟩ := handleRequest_after hb hordered hafterB hroom' hdisjoint
  -- no key is declared by both, so one of the two leaves a key alone
  have hagree : ∀ key, second.2.1.state.store.AgreeAt n.config.mvccEnabled
      second'.2.1.state.store key := by
    intro key
    rw [show second.2.1 = _ from hnode, show second'.2.1 = _ from hnode']
    by_cases hkey : key ∈ b.footprint
    · have hother : key ∉ a.footprint := fun hmem => hdisjoint hmem hkey
      exact (perform_either_order hordered hafterB.store hafterA hroom hdisjoint' hother).symm
    · exact perform_either_order hordered hafterA.store hafterB hroom' hdisjoint hkey
  refine ⟨⟨hanswer'.symm, hanswer⟩, fun key => (hagree key).lockOwner.symm, fun key => ?_,
    fun hmvcc => ?_⟩
  · rw [NodeState.get, NodeState.get, (hagree key.encode).newest]
  · have hreach : second.2.1 = start.performAll (actions ++ [.request a state, .request b state]) :=
      Eq.trans hnode (performAll_reached hn [.request a state, .request b state])
    have hreach' : second'.2.1 =
        start.performAll (actions ++ [.request b state, .request a state]) :=
      Eq.trans hnode' (performAll_reached hn [.request b state, .request a state])
    refine Store.WellFormed.ext ?_ ?_ ?_ ?_ (fun key => ((hagree key).versions hmvcc).symm)
      fun key => (hagree key).lockOwner.symm
    · rw [hreach]
      exact wellFormed_performAll hstart _
    · rw [hreach']
      exact wellFormed_performAll hstart _
    · rw [hreach]
      exact occupied_performAll hstart _
    · rw [hreach']
      exact occupied_performAll hstart _

end

/-- An upsert of two keys, one of which another transaction has locked, and an invocation on a third
key of a processor that counts up, by transactions that differ. In either order the upsert reports
the locked row, and the invocation counts up. -/
theorem handleRequest_commute_upsert_and_invoke :
    let view := TopologyView.ofNodes [1] 1
    let countUp : EntryProcessor TopologyView := ⟨fun view entry _ =>
      let value := if entry.value = some (.int 4) then .int 5 else .int 1
      ⟨.ok entry.value, entry.setValue value, view⟩⟩
    let start : Node TopologyView :=
      { id := 1, config := {}, loader := .ofRegistrations [] [("CountUp", countUp)] []
        context := .ofCache 1 1 }
    let request : EnlistRequest TopologyView :=
      { base := { cacheId := 1 }, topology := ⟨1, 0⟩, needResult := true }
    let upsert : LockVersion → List Int64 → EnlistRequest TopologyView := fun lock keys =>
      { request with
        op := some .upsert, lock
        wire := some (.entries (keys.map fun k => KeyObject.ofKey start.context (.int k))
          (keys.map fun _ => (ValueObject.ofValue (.int 4)).marshal)) }
    let actions := [.request (upsert ⟨1, 1, 1⟩ [3, 7]) view, .finish ⟨1, 1, 1⟩,
      .request (upsert ⟨1, 2, 1⟩ [3]) view]
    let n := start.performAll actions
    let a := upsert ⟨2, 1, 1⟩ [3, 5]
    let b : EnlistRequest TopologyView :=
      { request with
        op := some .invoke, lock := ⟨3, 1, 1⟩
        wire := some (.invokes [KeyObject.ofKey start.context (.int 7)]
          [.ofInvocation ⟨"CountUp", []⟩]) }
    let first := n.handleRequest a view
    let second := first.2.1.handleRequest b first.2.2
    let first' := n.handleRequest b view
    let second' := first'.2.1.handleRequest a first'.2.2
    a.footprint.Disjoint b.footprint ∧ first.1.failures.length = 1 ∧
      second.2.1.state.get (.int 7) none = .ok (some (.int 5)) ∧
      first.1 = second'.1 ∧ second.1 = first'.1 ∧
      second.2.1.state.get (.int 7) none = second'.2.1.state.get (.int 7) none := by
  intro view countUp start request upsert actions n a b first second first' second'
  have hn : start.performAll actions = n := rfl
  have hloader : n.loader = start.loader := by
    rw [← hn, performAll_eq]
  have hpure : n.loader.IsPure := by
    rw [hloader]
    refine ClassLoader.isPure_ofRegistrations (fun entry hentry => ?_) (List.forall_mem_nil _)
    rw [List.mem_singleton.mp hentry]
    exact ⟨fun entry _ => (.ok entry.value,
      entry.setValue (if entry.value = some (.int 4) then .int 5 else .int 1)), fun _ _ _ => rfl⟩
  have hruns : ∀ req : EnlistRequest TopologyView, req.filter = none → req.wire.isSome = true →
      req.RunsPure n.loader := fun req hfilter hwire =>
    EnlistRequest.runsPure hpure (fun f hf => by rw [hfilter] at hf; cases hf)
      fun hnone => by rw [hnone] at hwire; cases hwire
  have hdistinct : ∀ key ∈ a.footprint, key ∉ b.footprint := by decide +kernel
  have hdisjoint : a.footprint.Disjoint b.footprint := fun key => hdistinct key
  have hroom : (actions.map NodeAction.keys).sum + a.declaredKeys.length +
      b.declaredKeys.length < 2 ^ 63 := by decide +kernel
  have hfailed : first.1.failures.length = 1 := by decide +kernel
  have hvalue : second.2.1.state.get (.int 7) none = .ok (some (.int 5)) := by decide +kernel
  have hruns' := hruns a rfl rfl
  have hruns'' := hruns b rfl rfl
  have hstart : start.state = {} := rfl
  clear_value n a b
  obtain ⟨⟨hanswer, hanswer'⟩, -, hget, -⟩ :=
    handleRequest_commute hstart hn hruns' hruns'' hdisjoint (fun _ => hroom) view
  exact ⟨hdisjoint, hfailed, hvalue, hanswer, hanswer', hget _⟩

end Node

end Enlistment
