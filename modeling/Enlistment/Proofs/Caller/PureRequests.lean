import Enlistment.Proofs.Caller.Mapping
import Enlistment.Proofs.Caller.Network
import Enlistment.Proofs.Node.PureCode
import Enlistment.Proofs.Stream.Requests

/-!
# Requests with pure code

A node whose user code has no side effects carries out a request of the caller or leaves everything
as it is. It does not ask for a remap if the request was mapped on its view. If it carries the
request out then its answer tells the caller what the rows have done, which depends on the rows, on
the transaction and on the state of the node alone.
-/

namespace Enlistment

open HasTopology (topology)

variable {σ : Type}

/-! ## What a node reads -/

/-- A request as a node reads it, with all that decides what becomes of its rows. -/
structure EnlistRequest.Conveys (req sent : EnlistRequest σ) (ctx : MarshalContext)
    (batch : List Row) : Prop extends req.Carries sent ctx batch where
  filter : req.filter = sent.filter.map fun f => f.marshal.onWire
  topology : req.topology = sent.topology
  snapshot : req.snapshot = sent.snapshot
  lock : req.lock = sent.lock
  length_le : batch.length ≤ Wire.maxWireLength

/-- A node that can read a request of the caller reads all that decides what becomes of its
rows. -/
theorem Node.decodeRequest_conveys {n : Node σ} {e : Enlister σ} {part : Part}
    {sent req : EnlistRequest σ} {rows : List Row} {payload : Bytes} (hfresh : sent.Fresh rows)
    (hsent : e.encodeRequest part sent = .ok payload) (hread : n.decodeRequest payload = .ok req) :
    req.Conveys sent e.context rows := by
  have hcarries := decodeRequest_carries hfresh hsent hread
  obtain ⟨marshalled, hmarshal, hencode, -, rfl⟩ := decodeRequest_eq hfresh hsent hread
  have hwithin := (Draft.encoded hencode).2.1
  obtain ⟨deployment, addDeployment, wire, rfl, hwire⟩ := EnlistRequest.marshal_eq hmarshal
  refine ⟨hcarries, ?_, rfl, rfl, rfl, ?_⟩
  · show (sent.filter.map Filter.marshal).map Filter.onWire = _
    rw [Option.map_map]
    rfl
  · obtain ⟨hnone, -⟩ | ⟨rows', w, hrows, rfl, hconvert⟩ := hwire
    · cases hnone.symm.trans hfresh.pending
    · obtain rfl := Option.some.inj (hrows.symm.trans hfresh.pending)
      have hkeys := ((EnlistRequest.within_parts hwithin).2 w rfl).1
      rwa [WireRows.length, EnlistRequest.convertRows_keys hconvert, List.length_map] at hkeys

/-! ## What a node does -/

/-- Whether a request for some rows was mapped on a view, on which a node owns them all. -/
structure EnlistRequest.MappedOn (sent : EnlistRequest σ) (ctx : MarshalContext) (rows : List Row)
    (view : TopologyView) (node : NodeId) : Prop where
  version : view.version = sent.topology
  owned : ∀ row ∈ rows, view.primary (ctx.partitionOfValue row.keyValue) = some node

section

variable {library : ClassLoader σ} {sent req : EnlistRequest σ} {ctx : MarshalContext}
  {rows : List Row} {op : Operation}

/-- A view on which a request was mapped accepts it for the partitions of its rows. -/
theorem EnlistRequest.MappedOn.validate {view : TopologyView} {node : NodeId}
    (h : sent.MappedOn ctx rows view node) {requested : TopologyVersion}
    (hrequested : requested = sent.topology) {partitions : List Int32}
    (hpartitions : ∀ p ∈ partitions, ∃ row ∈ rows, p = ctx.partitionOfValue row.keyValue) :
    view.validate requested partitions node = .ok () := by
  refine TopologyView.validate_ok_iff.mpr ⟨by rw [hrequested, h.version], fun p hp => ?_⟩
  obtain ⟨row, hrow, rfl⟩ := hpartitions p hp
  exact h.owned row hrow

/-- The rebuilt rows of a request are in the partitions of the caller's rows. -/
theorem EnlistRequest.Conveys.partitions (h : req.Conveys sent ctx rows) {req' : EnlistRequest σ}
    {loader : ClassLoader σ} (hreq : req.unmarshal loader = (.ok (), req')) {p : Int32}
    (hp : p ∈ req'.takeRows.1.map fun row => row.keyObject.partition) :
    ∃ row ∈ rows, p = ctx.partitionOfValue row.keyValue := by
  obtain ⟨rebuilt, hrebuilt, rfl⟩ := List.mem_map.mp hp
  have hsame : rebuilt.keyObject.onWire ∈ req.declaredKeys.map KeyObject.onWire := by
    rw [← h.shaped.unmarshal_keys hreq]
    exact List.mem_map.mpr ⟨rebuilt, hrebuilt, rfl⟩
  rw [h.declaredKeys, List.map_map] at hsame
  obtain ⟨row, hrow, heq⟩ := List.mem_map.mp hsame
  exact ⟨row, hrow, (congrArg KeyObject.partition heq).symm⟩

/-- A node with pure code rejects a request of the caller and leaves everything as it is, or it
commits the rows, which have the effects that the code of the library has. A request that was
mapped on the view of the node is not rejected for its topology. The cases are those of the checks,
in the order in which they are made. -/
theorem Node.enlist_conveyed [HasTopology σ] {n : Node σ} (hlibrary : library.IsPure)
    (hloader : n.loader.LoadsFrom library) (h : req.Conveys sent ctx rows)
    (hop : sent.op = some op) (state : σ) :
    (∃ err, n.enlist req state = (.error err, n, state) ∧
      (sent.MappedOn ctx rows (topology state) n.id →
        ∀ wanted current, err ≠ .topologyMismatch wanted current)) ∨
      ∃ received staged, List.Forall₂ (fun row r => row.received library = .ok r) rows received ∧
        n.state.stageRows (sent.receivedContext library op) received state =
          (.ok staged, state) ∧
        n.enlist req state =
          (.ok staged.outcome, { n with state := n.state.commit staged.batch }, state) ∧
        sent.snapshot.isSome = n.config.mvccEnabled := by
  unfold enlist
  cases hpre : n.precheck req state with
  | error err =>
    refine .inl ⟨err, rfl, fun hmapped wanted current => ?_⟩
    unfold precheck at hpre
    split at hpre
    · rintro rfl
      cases hpre
    · rw [hmapped.validate h.topology fun p hp => by cases hp] at hpre
      dsimp only at hpre
      split at hpre
      · rintro rfl
        cases hpre
      · cases hpre
  | ok _ =>
    rcases hreq : req.unmarshal n.loader with ⟨cause | _, req'⟩
    · exact .inl ⟨_, rfl, fun _ _ _ he => by cases he⟩
    · have hpartitions := fun p (hp : p ∈ req'.takeRows.1.map fun row => row.keyObject.partition) =>
        h.partitions hreq hp
      obtain ⟨wire, hconvert, hwire⟩ := h.rows
      obtain ⟨hctx, hreceived⟩ := EnlistRequest.unmarshal_received hloader hconvert hwire h.filter
        h.snapshot h.lock h.needResult hreq op
      obtain ⟨filter, wire', enlisted, hsame⟩ := EnlistRequest.unmarshal_eq hreq
      have htopology : req'.topology = req.topology := by rw [hsame]
      have hop' : req'.op = some op := by rw [hsame, ← hop, ← h.op]
      simp only [htopology, hop']
      cases howned : (topology state).validate req.topology
          (req'.takeRows.1.map fun row => row.keyObject.partition) n.id with
      | error err =>
        refine .inl ⟨err, rfl, fun hmapped => ?_⟩
        rw [hmapped.validate h.topology hpartitions] at howned
        cases howned
      | ok _ =>
        -- nothing that the rows do depends on the state of the user code or on a partition
        obtain ⟨outcome, houtcome⟩ := stageFrom_isPure (sent.receivedContext_isPure hlibrary op)
          (Row.forall_received_isPure hlibrary hreceived) n.state.store 0
          { batch := { writeSeq := n.state.writeSeq } }
        have hstaged : n.state.stageRows (req'.applyContext op) req'.takeRows.1 state =
            (outcome, state) := by
          rw [NodeState.stageRows, hctx, ← stageFrom_unplaced, houtcome]
        simp only [EnlistRequest.applyContext] at hstaged
        simp only [applyRows, hstaged, htopology]
        cases outcome with
        | error err =>
          obtain ⟨cause, rfl⟩ := stageFrom_error (houtcome state)
          exact .inl ⟨_, rfl, fun _ _ _ he => by cases he⟩
        | ok staged =>
          simp only [howned]
          exact .inr ⟨_, staged, hreceived, houtcome state, rfl,
            h.snapshot ▸ precheck_ok_snapshot hpre⟩

end

/-! ## What the caller is told -/

/-- The outcome of a batch as its caller reads it. -/
def BatchOutcome.relayed (needResult : Bool) (o : BatchOutcome) : EnlistResult where
  previous := if needResult then o.previous.map fun r => r.relayed.value else []
  updated := o.updated
  failures := o.failures

/-- Staged rows have written at most one value each. -/
theorem NodeState.stageRows_updated_le {s : NodeState} {ctx : ApplyContext σ}
    {rows : List (EnlistedRow σ)} {staged : Staged} {state state' : σ}
    (h : s.stageRows ctx rows state = (.ok staged, state')) :
    staged.outcome.updated.toNat ≤ rows.length := by
  obtain ⟨hlength, htells⟩ := stageFrom_tells h
  have hcount := List.countP_le_length (p := fun effect : RowEffect => effect.written.isSome)
    (l := effectsFrom s.store ctx 0 rows { batch := { writeSeq := s.writeSeq } } state)
  rw [hlength] at hcount
  rw [htells.updated, UInt64.zero_add, UInt64.toNat_ofNat']
  exact Nat.le_trans (Nat.mod_le _ _) hcount

/-- The caller reads the outcome of a batch from the answer, if the number of values written fits
into the answer. -/
theorem Node.respond_toResult (req : EnlistRequest σ) {outcome : BatchOutcome}
    (hupdated : outcome.updated.toNat < 2 ^ 63) {response : EnlistResponse}
    (h : response = { respond req (.ok outcome) with
      result := (respond req (.ok outcome)).result.map (List.map ReturnValue.relayed) })
    (requested : TopologyVersion) :
    response.toResult requested = .ok (outcome.relayed req.needResult) := by
  subst h
  have hcount : outcome.updated < 0x8000000000000000 := UInt64.lt_iff_toNat_lt.mpr hupdated
  have hnonneg : ¬ outcome.updated.toInt64 < 0 := by
    have hsame : outcome.updated.toInt64.toInt = outcome.updated.toNat := by
      show outcome.updated.toBitVec.toInt = _
      rw [BitVec.toInt_eq_toNat_of_lt]
      · rfl
      · show 2 * outcome.updated.toNat < 2 ^ 64
        omega
    rw [Int64.lt_iff_toInt_lt, hsame]
    exact Int.not_lt.mpr (Int.natCast_nonneg _)
  simp only [respond, EnlistResponse.withFailures, EnlistResponse.withUpdateCount, if_pos hcount]
  cases hneed : req.needResult <;> cases hfailures : outcome.failures <;>
    simp [EnlistResponse.toResult, EnlistResponse.ofRequest, EnlistResponse.failures,
      BatchOutcome.relayed, hnonneg, hfailures]

/-- A response that is a success asks for no remap and reports no error. -/
theorem EnlistResponse.toResult_ok {response : EnlistResponse} {requested : TopologyVersion}
    {result : EnlistResult} (h : response.toResult requested = .ok result) :
    response.remap = none ∧ response.error = none := by
  unfold toResult at h
  split at h
  · cases h
  · cases h
  · next hremap herror => exact ⟨hremap, herror⟩

/-- What the rows of a call have in common, with the filter as every receiver rebuilds it. -/
def Call.rowContext (library : ClassLoader σ) (c : Call σ) : ApplyContext σ :=
  { op := c.op, filter := c.options.filter.map (Filter.received library)
    snapshot := c.tx.snapshot, lock := c.tx.lock, needResult := c.options.needResult }

/-- A node of the mode of a call can stage rows of the call, with what comes of them. -/
structure Node.Stages (library : ClassLoader σ) (c : Call σ) (rows : List IndexedRow) (n : Node σ)
    (state : σ) (staged : Staged) : Prop where
  received : ∃ received : List (EnlistedRow σ),
    List.Forall₂ (fun row r => row.2.received library = .ok r) rows received ∧
      n.state.stageRows (c.rowContext library) received state = (.ok staged, state)
  mode : c.tx.snapshot.isSome = n.config.mvccEnabled
  length_le : rows.length ≤ Wire.maxWireLength

/-- A request of a call as it was sent for rows that were mapped on a view. -/
def Letter.SentOn (e : Enlister σ) (c : Call σ) (view : TopologyView) (l : Letter σ) : Prop :=
  ∃ (part : Part) (limitMs : Nat) (messageId : Int64), part.rows = l.rows ∧
    e.encodeRequest part (c.request e view.version part limitMs messageId) = .ok l.dispatch.payload

/-- A node with pure code that handles a request of a call leaves the state of the user code as it
is. If the caller can read the answer, then the answer asks for no remap on the view on which the
rows were mapped, and a success tells what the rows have done. -/
theorem Letter.SentOn.handled [HasTopology σ] {library : ClassLoader σ} {n : Node σ}
    {e : Enlister σ} {c : Call σ} {view : TopologyView} {l : Letter σ} (h : l.SentOn e c view)
    (hlibrary : library.IsPure) (hloader : n.loader.LoadsFrom library)
    (hfilter : ∀ f, c.options.filter = some f → (Message.filter f).Built) (state : σ) :
    (n.handleBytes l.dispatch.payload state).2.2 = state ∧
      ∀ bytes response, (n.handleBytes l.dispatch.payload state).1 = .ok bytes →
        e.readReply bytes = .ok response →
        (topology state = view → (∀ row ∈ l.rows, e.context.ownedBy view n.id row = true) →
          response.remap = none) ∧
        ∀ result, response.toResult view.version = .ok result →
          ∃ staged, n.Stages library c l.rows state staged ∧
            (n.handleBytes l.dispatch.payload state).2.1 =
              { n with state := n.state.commit staged.batch } ∧
            result = staged.outcome.relayed c.options.needResult := by
  obtain ⟨part, limitMs, messageId, hrows, hsent⟩ := h
  have hfresh : (c.request e view.version part limitMs messageId).Fresh (part.rows.map Prod.snd) :=
    ⟨rfl, rfl, rfl, hfilter⟩
  unfold Node.handleBytes
  cases hreq : n.decodeRequest l.dispatch.payload with
  | error err => exact ⟨rfl, fun bytes response hbytes => by cases hbytes⟩
  | ok req =>
    have hconveys := Node.decodeRequest_conveys hfresh hsent hreq
    dsimp only
    unfold Node.handleRequest
    rcases Node.enlist_conveyed hlibrary hloader hconveys rfl state with
      ⟨err, henlist, hremap⟩ | ⟨received, staged, hreceived, hstaged, henlist, hmode⟩
    · rw [henlist]
      refine ⟨rfl, fun bytes response hbytes hread => ?_⟩
      obtain rfl := Enlister.readReply_eq hbytes hread
      refine ⟨fun hview howned => ?_, fun result hresult => ?_⟩
      · cases hasked : (Node.respond req (.error err)).remap with
        | none => rfl
        | some current =>
          obtain ⟨requested, herr⟩ := Node.respond_remap hasked
          refine absurd (Except.error.inj herr) (hremap ⟨by rw [hview]; rfl, ?_⟩ requested current)
          intro row hrow
          obtain ⟨indexed, hindexed, rfl⟩ := List.mem_map.mp hrow
          rw [hview]
          exact eq_of_beq (howned indexed (hrows ▸ hindexed))
      · obtain ⟨hremap, herror⟩ := EnlistResponse.toResult_ok hresult
        rcases Node.respond_error req err with hsome | hsome
        · exact absurd (hsome.symm.trans (congrArg Option.isSome hremap)) Bool.noConfusion
        · exact absurd (hsome.symm.trans (congrArg Option.isSome herror)) Bool.noConfusion
    · rw [henlist]
      refine ⟨rfl, fun bytes response hbytes hread => ⟨fun _ _ => ?_, fun result hresult => ?_⟩⟩
      · rw [Enlister.readReply_eq hbytes hread]
        exact (Node.respond_ok req staged.outcome).1
      · have hlength : received.length = l.rows.length := by
          rw [← hreceived.length_eq, List.length_map, hrows]
        have hcount : l.rows.length ≤ Wire.maxWireLength := by
          rw [← hrows, ← List.length_map (f := Prod.snd)]
          exact hconveys.length_le
        have hupdated : staged.outcome.updated.toNat < 2 ^ 63 := by
          have hle := n.state.stageRows_updated_le hstaged
          rw [hlength] at hle
          exact Nat.lt_of_le_of_lt (Nat.le_trans hle hcount) (by decide)
        rw [Node.respond_toResult req hupdated (Enlister.readReply_eq hbytes hread)] at hresult
        refine ⟨staged, ⟨⟨received, ?_, hstaged⟩, hmode, hcount⟩, rfl, ?_⟩
        · rw [← hrows]
          exact List.forall₂_map_left_iff.mp hreceived
        · rw [← Except.ok.inj hresult, hconveys.needResult]
          rfl

end Enlistment
