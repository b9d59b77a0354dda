import Enlistment.Node
import Enlistment.Proofs.Node.Rows
import Enlistment.Proofs.Stream.Building

/-!
# Handling requests

A request ends in one of three ways: it is rejected, it has no operation, or its rows are
committed. User code may change the topology while the rows are staged, so only the check
right before the commit counts. Nothing but the commit changes the state of a node.
-/

namespace Enlistment

variable {σ : Type}

/-! ## Checks against a view -/

/-- A topology mismatch that an error reports is one of a requested version and a view. -/
def EnlistError.Reports (e : EnlistError) (requested : TopologyVersion) (view : TopologyView) :
    Prop :=
  ∀ wanted current, e = .topologyMismatch wanted current →
    wanted = requested ∧ current = view.version

namespace TopologyView

/-- A view accepts its own version for partitions that the node owns. -/
theorem validate_ok_iff {view : TopologyView} {requested : TopologyVersion}
    {partitions : List Int32} {node : NodeId} :
    view.validate requested partitions node = .ok () ↔
      view.version = requested ∧ ∀ p ∈ partitions, view.primary p = some node := by
  unfold validate
  split
  · next h =>
    rw [List.all_eq_true] at h
    exact ⟨fun _ => ⟨h.1.symm, fun p hp => eq_of_beq (h.2 p hp)⟩, fun _ => rfl⟩
  · next h =>
    constructor
    · intro hok
      cases hok
    · rintro ⟨hversion, howned⟩
      refine absurd ⟨hversion.symm, List.all_eq_true.mpr fun p hp => ?_⟩ h
      rw [owns, howned p hp]
      exact beq_self_eq_true _

/-- A view that does not accept a request reports its own version. -/
theorem validate_error {view : TopologyView} {requested : TopologyVersion}
    {partitions : List Int32} {node : NodeId} {e : EnlistError}
    (h : view.validate requested partitions node = .error e) : e.Reports requested view := by
  unfold validate at h
  split at h
  · cases h
  · intro wanted current he
    obtain ⟨rfl, rfl⟩ := EnlistError.topologyMismatch.inj ((Except.error.inj h).trans he)
    exact ⟨rfl, rfl⟩

end TopologyView

/-! ## Failures of staging -/

/-- Stored octets that are no value are the only failure to read them. -/
theorem decodeStored_error {bytes : Option Bytes} {e : EnlistError}
    (h : decodeStored bytes = .error e) : ∃ cause, e = .unmarshal (.decode cause) := by
  cases bytes with
  | none => cases h
  | some bs =>
    rw [decodeStored] at h
    cases hdecode : Value.decode bs with
    | error cause =>
      rw [hdecode] at h
      exact ⟨cause, (Except.error.inj h).symm⟩
    | ok v =>
      rw [hdecode] at h
      cases h

/-- A row can only not be tried if the current value of its key cannot be read. -/
theorem stageRow_error {store : Store} {ctx : ApplyContext σ} {index : Nat}
    {row : EnlistedRow σ} {s : Staged} {state state' : σ} {e : EnlistError}
    (h : stageRow store ctx index row s state = (.error e, state')) :
    ∃ cause, e = .unmarshal (.decode cause) := by
  have htry : ∀ key, stageRow.tryRow store ctx index row s state key = (.error e, state') →
      ∃ cause, e = .unmarshal (.decode cause) := by
    intro key hkey
    unfold stageRow.tryRow at hkey
    cases hcurrent : currentValue store ctx s.batch key with
    | error e' =>
      simp only [hcurrent, Prod.mk.injEq, Except.error.injEq] at hkey
      rw [← hkey.1]
      unfold currentValue at hcurrent
      split at hcurrent <;> exact decodeStored_error hcurrent
    | ok current =>
      simp only [hcurrent] at hkey
      split at hkey <;> cases hkey
  unfold stageRow at h
  split at h
  · cases h
  · next key _ =>
    split at h
    · split at h
      · cases h
      · exact htry key h
    · exact htry key h

/-- Staging fails on a row whose current value cannot be read, and in no other way. -/
theorem stageFrom_error {store : Store} {ctx : ApplyContext σ} {index : Nat}
    {rows : List (EnlistedRow σ)} {s : Staged} {state state' : σ} {e : EnlistError}
    (h : stageFrom store ctx index rows s state = (.error e, state')) :
    ∃ cause, e = .unmarshal (.decode cause) := by
  induction rows generalizing index s state with
  | nil => cases h
  | cons row rest ih =>
    rw [stageFrom] at h
    rcases hrow : stageRow store ctx index row s state with ⟨e' | s', next⟩ <;>
      simp only [hrow] at h
    · obtain rfl : e' = e := Except.error.inj (Prod.mk.inj h).1
      exact stageRow_error hrow
    · exact ih h

/-! ## Answers -/

namespace Node

/-- An answer carries what its sender knows the request by. -/
theorem respond_echoes (req : EnlistRequest σ) (outcome : Except EnlistError BatchOutcome) :
    (respond req outcome).base.cacheId = req.base.cacheId ∧
      (respond req outcome).futureId = req.futureId ∧
      (respond req outcome).mini = req.mini ∧ (respond req outcome).lock = req.lock := by
  unfold respond
  split
  · exact ⟨rfl, rfl, rfl, rfl⟩
  · exact ⟨rfl, rfl, rfl, rfl⟩
  · simp only [EnlistResponse.withFailures]
    split <;> split <;> exact ⟨rfl, rfl, rfl, rfl⟩

/-- The answer to a request that was carried out has neither a remap nor an error. -/
theorem respond_ok (req : EnlistRequest σ) (outcome : BatchOutcome) :
    (respond req (.ok outcome)).remap = none ∧ (respond req (.ok outcome)).error = none := by
  simp only [respond, EnlistResponse.withFailures]
  split <;> split <;> exact ⟨rfl, rfl⟩

/-- The answer to a request that failed has a remap or an error. -/
theorem respond_error (req : EnlistRequest σ) (e : EnlistError) :
    (respond req (.error e)).remap.isSome ∨ (respond req (.error e)).error.isSome := by
  unfold respond
  split
  · exact .inl rfl
  · exact .inr rfl
  · next h => cases h

/-- A remap passes on the version that a mismatch reports. -/
theorem respond_remap {req : EnlistRequest σ} {outcome : Except EnlistError BatchOutcome}
    {current : TopologyVersion} (h : (respond req outcome).remap = some current) :
    ∃ requested, outcome = .error (.topologyMismatch requested current) := by
  unfold respond at h
  split at h
  · next requested current' =>
    obtain rfl := Option.some.inj h
    exact ⟨requested, rfl⟩
  · cases h
  · next outcome =>
    have hnone := (respond_ok req outcome).1
    simp only [respond] at hnone
    rw [hnone] at h
    cases h

end Node

/-! ## Enlisting -/

/-- What the rows of a request have in common under an operation. -/
def EnlistRequest.applyContext (req : EnlistRequest σ) (op : Operation) : ApplyContext σ :=
  { op, filter := req.filter, snapshot := req.snapshot, lock := req.lock,
    needResult := req.needResult }

/-- The rows of a request in shape that a view accepts have all the partitions that the
request declares. -/
theorem EnlistRequest.Shaped.declaredKeys_owned {req req' : EnlistRequest σ}
    {loader : ClassLoader σ} {view : TopologyView} {node : NodeId} (hshaped : req.Shaped)
    (hreq : req.unmarshal loader = (.ok (), req'))
    (howned : ∀ p ∈ req'.takeRows.1.map fun row => row.keyObject.partition,
      view.primary p = some node) :
    ∀ key ∈ req.declaredKeys, view.primary key.partition = some node := by
  intro key hkey
  have hsame : key.onWire ∈ req'.takeRows.1.map fun row => row.keyObject.onWire := by
    rw [hshaped.unmarshal_keys hreq]
    exact List.mem_map_of_mem hkey
  obtain ⟨row, hrow, heq⟩ := List.mem_map.mp hsame
  rw [show key.partition = key.onWire.partition from rfl, ← heq]
  exact howned _ (List.mem_map.mpr ⟨row, hrow, rfl⟩)

namespace Node

variable [HasTopology σ]

open HasTopology (topology)

/-- How a request ends on a node: with an outcome, the node and the state after it. -/
inductive Ending (n : Node σ) (req : EnlistRequest σ) (state : σ) :
    Except EnlistError BatchOutcome × Node σ × σ → Prop
  /-- A mismatch is one with the view at the time of the rejection. -/
  | rejected {e : EnlistError} {state' : σ} (he : e.Reports req.topology (topology state')) :
      Ending n req state (.error e, n, state')
  | idle (hop : req.op = none) : Ending n req state (.ok {}, n, state)
  /-- The rows are staged, and the view after that still accepts the request. -/
  | committed {req' : EnlistRequest σ} {op : Operation} {staged : Staged} {state' : σ}
      (hreq : req.unmarshal n.loader = (.ok (), req')) (hop : req.op = some op)
      (hstaged : n.state.stageRows (req'.applyContext op) req'.takeRows.1 state =
        (.ok staged, state'))
      (hvalid : (topology state').validate req.topology
        (req'.takeRows.1.map fun row => row.keyObject.partition) n.id = .ok ()) :
      Ending n req state
        (.ok staged.outcome, { n with state := n.state.commit staged.batch }, state')

/-- Before its rows are rebuilt a request is rejected for its cache, its version or its mode. -/
theorem precheck_error {n : Node σ} {req : EnlistRequest σ} {state : σ} {e : EnlistError}
    (h : n.precheck req state = .error e) : e.Reports req.topology (topology state) := by
  unfold precheck at h
  split at h
  · obtain rfl := Except.error.inj h
    exact fun _ _ he => by cases he
  · split at h
    · next e' hvalid =>
      obtain rfl := Except.error.inj h
      exact TopologyView.validate_error hvalid
    · split at h
      · obtain rfl := Except.error.inj h
        exact fun _ _ he => by cases he
      · cases h

/-- Every request ends in one of the three ways. The cases are those of the checks, in the
order in which they are made. -/
theorem enlist_ending (n : Node σ) (req : EnlistRequest σ) (state : σ) :
    Ending n req state (n.enlist req state) := by
  unfold enlist
  cases hpre : n.precheck req state with
  | error e => exact .rejected (precheck_error hpre)
  | ok _ =>
    rcases hreq : req.unmarshal n.loader with ⟨cause | _, req'⟩
    · exact .rejected fun _ _ he => by cases he
    · obtain ⟨filter, wire, enlisted, hsame⟩ := EnlistRequest.unmarshal_eq hreq
      have htopology : req'.topology = req.topology := by rw [hsame]
      have hop : req'.op = req.op := by rw [hsame]
      simp only [htopology, hop]
      cases howned : (topology state).validate req.topology
          (req'.takeRows.1.map fun row => row.keyObject.partition) n.id with
      | error e => exact .rejected (TopologyView.validate_error howned)
      | ok _ =>
        cases hsome : req.op with
        | none => exact .idle hsome
        | some op =>
          simp only [applyRows]
          rcases hstaged : n.state.stageRows (req'.applyContext op) req'.takeRows.1 state with
            ⟨e | staged, state'⟩ <;> simp only [EnlistRequest.applyContext] at hstaged <;>
            simp only [hstaged]
          · obtain ⟨cause, rfl⟩ := stageFrom_error hstaged
            exact .rejected fun _ _ he => by cases he
          · rw [htopology]
            cases hvalid : (topology state').validate req.topology
                (req'.takeRows.1.map fun row => row.keyObject.partition) n.id with
            | error e => exact .rejected (TopologyView.validate_error hvalid)
            | ok _ => exact .committed hreq hsome hstaged hvalid

/-- A request that is answered with a remap or an error leaves no trace on the node, and one
with an operation that is answered with neither is counted. If a request changes the state of
the node, then the view that it was committed on had the version of the request, and the node
owned the partitions of all keys that the request declares. The answer carries what the request
is known by, and a remap names the version at the rejection. -/
theorem handleRequest_rejected_or_current {n n' : Node σ} {req : EnlistRequest σ}
    {state state' : σ} {answer : EnlistResponse}
    (h : n.handleRequest req state = (answer, n', state')) :
    (answer.remap.isSome ∨ answer.error.isSome → n' = n) ∧
      (answer.remap = none → answer.error = none → req.op.isSome →
        n'.state.enlistedRequests = n.state.enlistedRequests + 1) ∧
      (n'.state ≠ n.state → (topology state').version = req.topology ∧
        ((Message.request req).Built → ∀ key ∈ req.declaredKeys,
          (topology state').primary key.partition = some n.id)) ∧
      (answer.base.cacheId = req.base.cacheId ∧ answer.futureId = req.futureId ∧
        answer.mini = req.mini ∧ answer.lock = req.lock) ∧
      ∀ current, answer.remap = some current → current = (topology state').version := by
  obtain ⟨rfl, hresult⟩ := Prod.mk.inj h
  have hending := n.enlist_ending req state
  rcases hr : n.enlist req state with ⟨outcome, n₁, state₁⟩
  rw [hr] at hending hresult
  obtain ⟨rfl, rfl⟩ := Prod.mk.inj hresult
  have hechoes := respond_echoes req outcome
  cases hending with
  | @rejected e _ he =>
    have hreported := respond_error req e
    refine ⟨fun _ => rfl, fun hremap herror _ => ?_, fun hchanged => absurd rfl hchanged, hechoes,
      fun current hremap => ?_⟩
    · rw [hremap, herror] at hreported
      rcases hreported with h | h <;> cases h
    · obtain ⟨requested, herror⟩ := respond_remap hremap
      exact (he _ _ (Except.error.inj herror)).2
  | idle hnone =>
    refine ⟨fun _ => rfl, fun _ _ hop => ?_, fun hchanged => absurd rfl hchanged, hechoes,
      fun current hremap => ?_⟩
    · rw [hnone] at hop
      cases hop
    · obtain ⟨requested, herror⟩ := respond_remap hremap
      cases herror
  | @committed req' op staged _ hreq hop hstaged hvalid =>
    obtain ⟨hremap, herror⟩ := respond_ok req staged.outcome
    obtain ⟨hversion, howned⟩ := TopologyView.validate_ok_iff.mp hvalid
    refine ⟨fun hrejected => ?_, fun _ _ _ => rfl, fun _ => ⟨hversion, fun hbuilt => ?_⟩, hechoes,
      fun current hcurrent => ?_⟩
    · rw [hremap, herror] at hrejected
      rcases hrejected with h | h <;> cases h
    · exact hbuilt.shaped.declaredKeys_owned hreq howned
    · rw [hremap] at hcurrent
      cases hcurrent

/-- A view is the plainest state that has a topology. -/
instance : HasTopology TopologyView where
  topology view := view
  setTopology _ view := view

/-- An upsert is committed by the owner of its key's partition. An invocation that moves this
partition to another node is answered with a remap, and what it wrote is gone. -/
theorem handleRequest_upsert_and_move :
    let view := TopologyView.ofNodes [1] 1
    let move : EntryProcessor TopologyView :=
      ⟨fun view entry _ => ⟨.ok none, entry.setValue (.int 5), view.reassign 0 2⟩⟩
    let n : Node TopologyView :=
      { id := 1, config := {}, loader := .ofRegistrations [] [("move", move)] []
        context := .ofCache 1 1 }
    let keys := [KeyObject.ofKey n.context (.int 3)]
    let request : EnlistRequest TopologyView := { base := { cacheId := 1 }, topology := ⟨1, 0⟩ }
    let upsert : EnlistRequest TopologyView :=
      { request with
        op := some .upsert, wire := some (.entries keys [(ValueObject.ofValue (.int 4)).marshal]) }
    let invoke : EnlistRequest TopologyView :=
      { request with op := some .invoke, wire := some (.invokes keys [.ofInvocation ⟨"move", []⟩]) }
    ((n.handleRequest upsert view).2.1.state ≠ n.state ∧
        ∀ key ∈ keys, view.primary key.partition = some 1) ∧
      (n.handleRequest invoke view).1.remap = some ⟨1, 1⟩ ∧
        (n.handleRequest invoke view).2.1 = n := by
  intro view move n keys request upsert invoke
  let pending : EnlistRequest TopologyView :=
    { request with op := some .upsert, pending := some [.entry (.int 3) (.int 4)] }
  have hmarshal : (Message.request pending).marshal n.context = .ok (.request upsert) := rfl
  have hbuilt : (Message.request upsert).Built :=
    (Message.Built.request pending rfl fun f hf => by cases hf).marshal hmarshal
  have hchanged : (n.handleRequest upsert view).2.1.state ≠ n.state := by decide +kernel
  have hview : (n.handleRequest upsert view).2.2 = view := by decide +kernel
  have hremap : (n.handleRequest invoke view).1.remap = some ⟨1, 1⟩ := by decide +kernel
  rcases hupsert : n.handleRequest upsert view with ⟨answer, n', state'⟩
  rcases hinvoke : n.handleRequest invoke view with ⟨answer', n'', state''⟩
  rw [hupsert] at hchanged hview
  rw [hinvoke] at hremap
  obtain rfl : state' = view := hview
  refine ⟨⟨hchanged, ?_⟩, hremap, ?_⟩
  · exact ((handleRequest_rejected_or_current hupsert).2.2.1 hchanged).2 hbuilt
  · refine (handleRequest_rejected_or_current hinvoke).1 (.inl ?_)
    rw [hremap]
    rfl

end Node

end Enlistment
