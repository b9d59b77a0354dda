import Enlistment.Caller.Exchange
import Enlistment.Proofs.Message.Rebuilding
import Enlistment.Proofs.Node.Actions
import Enlistment.Proofs.Stream.Delivery

/-!
# Requests and their answers

A node that can read a request of the caller reads it as it was sent, rows and all. An answer
that the caller can read is the one to this request, and says whether the node has committed it:
a remap or an error stands for nothing, and anything else for a commit with one result for each
row, if results were asked for.
-/

namespace Enlistment

variable {σ : Type}

/-! ## What is sent -/

namespace EnlistRequest

/-- Marshalling brings the rows of a request into wire form and changes nothing else of it but
its filter and its deployment info. -/
theorem marshal_pending {ctx : MarshalContext} {req req' : EnlistRequest σ} {rows : List Row}
    (hpending : req.pending = some rows) (h : req.marshal ctx = .ok req') :
    ∃ wire base filter addDeployment, convertRows ctx req.op rows = .ok wire ∧
      req' = { req with
        base := base, filter := filter, addDeployment := addDeployment, pending := none,
        wire := some wire } := by
  obtain ⟨deployment, addDeployment, wire, rfl, hwire⟩ := marshal_eq h
  obtain ⟨hnone, -⟩ | ⟨rows', w, hrows, rfl, hconvert⟩ := hwire
  · cases hnone.symm.trans hpending
  · obtain rfl := Option.some.inj (hrows.symm.trans hpending)
    exact ⟨w, _, _, addDeployment, hconvert, rfl⟩

end EnlistRequest

/-- A request of the caller, not in wire form yet, for some rows. -/
structure EnlistRequest.Fresh (req : EnlistRequest σ) (rows : List Row) : Prop where
  pending : req.pending = some rows
  wire : req.wire = none
  op : req.op.isSome = true
  filter : ∀ f, req.filter = some f → (Message.filter f).Built

/-- A request as a node reads it: in shape, with the rows of the caller in wire form and with
what the answer is to be known by. -/
structure EnlistRequest.Carries (req sent : EnlistRequest σ) (ctx : MarshalContext)
    (rows : List Row) : Prop where
  shaped : req.Shaped
  rows : ∃ wire : WireRows σ, convertRows ctx sent.op rows = .ok wire ∧
    req.wire = some wire.onWire
  op : req.op = sent.op
  futureId : req.futureId = sent.futureId
  mini : req.mini = sent.mini
  needResult : req.needResult = sent.needResult

/-- The request of some rows declares one key for each of them. -/
theorem EnlistRequest.Carries.declaredKeys {req sent : EnlistRequest σ} {ctx : MarshalContext}
    {rows : List Row} (h : req.Carries sent ctx rows) :
    req.declaredKeys = rows.map fun row => (KeyObject.ofKey ctx row.keyValue).onWire := by
  obtain ⟨wire, hconvert, hwire⟩ := h.rows
  have hkeys : wire.onWire.keys = wire.keys.map KeyObject.onWire := by
    cases wire <;> rfl
  rw [EnlistRequest.declaredKeys, hwire]
  simp only [hkeys, convertRows_keys hconvert, List.map_map]
  rfl

/-- A result whose errors are replaced is a success if it was one before. -/
theorem mapError_eq_ok {A E F : Type} {f : E → F} {x : Except E A} {a : A} :
    x.mapError f = .ok a ↔ x = .ok a := by
  cases x with
  | error e => constructor <;> intro h <;> cases h
  | ok b => exact ⟨fun h => congrArg _ (Except.ok.inj h), fun h => congrArg _ (Except.ok.inj h)⟩

/-- A node that can read a request of the caller reads what the caller has marshalled. -/
theorem Node.decodeRequest_eq {n : Node σ} {e : Enlister σ} {part : Part}
    {sent req : EnlistRequest σ} {rows : List Row} {payload : Bytes} (hfresh : sent.Fresh rows)
    (hsent : e.encodeRequest part sent = .ok payload) (hread : n.decodeRequest payload = .ok req) :
    ∃ marshalled, sent.marshal e.context = .ok marshalled ∧
      (Message.request marshalled).toDraft.encodeChunked e.config.chunkSize = .ok payload ∧
      (Message.request marshalled).Built ∧ req = marshalled.onWire := by
  unfold Enlister.encodeRequest at hsent
  cases hmarshal : sent.marshal e.context with
  | error err =>
    rw [hmarshal] at hsent
    cases hsent
  | ok marshalled =>
    rw [hmarshal] at hsent
    have hencode : (Message.request marshalled).toDraft.encodeChunked e.config.chunkSize =
        .ok payload := mapError_eq_ok.mp hsent
    have hmessage : (Message.request sent).marshal e.context = .ok (.request marshalled) := by
      simp only [Message.marshal, hmarshal, Except.map]
    have hbuilt : (Message.request marshalled).Built :=
      (Message.Built.request sent hfresh.wire hfresh.filter).marshal hmessage
    refine ⟨marshalled, rfl, hencode, hbuilt, ?_⟩
    simp only [decodeRequest] at hread
    split at hread
    · cases hread
    · next record hfound =>
      have hdraft := hbuilt.shaped.found_eq hencode (List.mem_singleton.mpr rfl)
        (payload.flatten_pieces n.config.chunkSize) hfound
      rw [← Except.ok.inj hread, ← marshalled.ofRecord_toRecord]
      cases hdraft
      rfl
    · cases hread

/-- A node that can read a request of the caller reads it as it was sent. -/
theorem Node.decodeRequest_carries {n : Node σ} {e : Enlister σ} {part : Part}
    {sent req : EnlistRequest σ} {rows : List Row} {payload : Bytes} (hfresh : sent.Fresh rows)
    (hsent : e.encodeRequest part sent = .ok payload) (hread : n.decodeRequest payload = .ok req) :
    req.Carries sent e.context rows := by
  obtain ⟨marshalled, hmarshal, -, hbuilt, rfl⟩ := decodeRequest_eq hfresh hsent hread
  obtain ⟨wire, base, filter, addDeployment, hconvert, rfl⟩ :=
    EnlistRequest.marshal_pending hfresh.pending hmarshal
  exact ⟨EnlistRequest.Shaped.onWire hbuilt.shaped, ⟨wire, hconvert, rfl⟩, rfl, rfl, rfl, rfl⟩

/-! ## What is answered -/

/-- A return value as the caller reads it, whatever classes it knows. -/
def ReturnValue.relayed (r : ReturnValue) : ReturnValue :=
  (r.marshal.onWire.unmarshal true fun _ => true).2

/-- A value that the caller can read. -/
theorem ReturnValue.unmarshal_relayed {keepBinary : Bool} {hasClass : String → Bool}
    {r r' : ReturnValue} (h : r.marshal.onWire.unmarshal keepBinary hasClass = (.ok (), r')) :
    r' = r.relayed := by
  obtain ⟨object⟩ := r
  cases object with
  | none => exact (Prod.mk.inj h).2.symm
  | some o =>
    obtain ⟨hresult, rfl⟩ := Prod.mk.inj h
    have hsame := ValueObject.unmarshal_unchecked (o := o.marshal.onWire)
      (Prod.ext hresult rfl) fun _ => true
    simp only [relayed, marshal, onWire, Option.map_some, unmarshal, hsame]

/-- Values that the caller can read, one by one. -/
theorem unmarshalEach_relayed {keepBinary : Bool} {hasClass : String → Bool}
    {values values' : List ReturnValue}
    (h : unmarshalEach (ReturnValue.unmarshal keepBinary hasClass)
      ((values.map ReturnValue.marshal).map ReturnValue.onWire) = (.ok (), values')) :
    values' = values.map ReturnValue.relayed := by
  induction values generalizing values' with
  | nil => exact (Prod.mk.inj h).2.symm
  | cons value rest ih =>
    rw [List.map_cons, List.map_cons, unmarshalEach] at h
    rcases hvalue : value.marshal.onWire.unmarshal keepBinary hasClass with ⟨_ | _, value'⟩ <;>
      simp only [hvalue] at h
    · cases h
    · obtain ⟨hresult, rfl⟩ := Prod.mk.inj h
      obtain rfl := ReturnValue.unmarshal_relayed hvalue
      exact congrArg (value.relayed :: ·) (ih (Prod.ext hresult rfl))

/-- A caller that can read an answer reads it as it was sent, with its results in another form. -/
theorem Enlister.readReply_eq {n : Node σ} {e : Enlister σ} {answer response : EnlistResponse}
    {bytes : Bytes} (hsent : n.encodeResponse answer = .ok bytes)
    (hread : e.readReply bytes = .ok response) :
    response = { answer with result := answer.result.map (List.map ReturnValue.relayed) } := by
  have hencode : (Message.response (σ := σ) answer.marshal).toDraft.encodeChunked
      n.config.chunkSize = .ok bytes := mapError_eq_ok.mp hsent
  have hbuilt : (Message.response (σ := σ) answer.marshal).Built :=
    .plain _ (fun f h => by cases h) fun r h => by cases h
  unfold readReply decodeChunked at hread
  rcases hfound : ({ accepted := [MessageType.response] } : Decoder).firstOf
    (bytes.pieces e.config.chunkSize) with ⟨_ | _ | draft, d⟩ <;> simp only [hfound] at hread
  · cases hread
  · cases hread
  · obtain rfl := hbuilt.shaped.found_eq hencode (List.mem_singleton.mpr rfl)
      (Bytes.flatten_pieces _ _) (congrArg Prod.fst hfound)
    simp only [Message.toDraft, EnlistResponse.ofRecord_toRecord] at hread
    rcases hresult : answer.result with _ | values
    · simp only [EnlistResponse.unmarshal, EnlistResponse.onWire, EnlistResponse.marshal, hresult,
        Option.map_none, Except.ok.injEq] at hread
      rw [← hread, Option.map_none]
    · simp only [EnlistResponse.unmarshal, EnlistResponse.onWire, EnlistResponse.marshal, hresult,
        Option.map_some] at hread
      split at hread
      · cases hread
      · next u h =>
        obtain rfl := Except.ok.inj hread
        obtain ⟨hresult, rfl⟩ := Prod.mk.inj h
        have hvalues := unmarshalEach_relayed (Prod.ext hresult rfl)
        exact congrArg (fun result => { answer with result := some result }) hvalues

/-- A response as it is read by the caller: the answer of a node, with its results in another
form. -/
def EnlistResponse.Relays (response answer : EnlistResponse) : Prop :=
  ∃ result, response = { answer with result := result } ∧
    result.map List.length = answer.result.map List.length

/-- A caller that can read an answer reads one result for each of those that were sent. -/
theorem Enlister.readReply_relays {n : Node σ} {e : Enlister σ} {answer response : EnlistResponse}
    {bytes : Bytes} (hsent : n.encodeResponse answer = .ok bytes)
    (hread : e.readReply bytes = .ok response) : response.Relays answer := by
  refine ⟨_, readReply_eq hsent hread, ?_⟩
  cases answer.result <;> simp

/-- Staged rows have one result each, if results are asked for. -/
theorem NodeState.stageRows_length {s : NodeState} {ctx : ApplyContext σ}
    {rows : List (EnlistedRow σ)} {staged : Staged} {state state' : σ}
    (h : s.stageRows ctx rows state = (.ok staged, state')) (hneed : ctx.needResult = true) :
    staged.outcome.previous.length = rows.length := by
  obtain ⟨hlength, htells⟩ := stageFrom_tells h
  rw [htells.previous, if_pos hneed, List.nil_append, List.length_map, hlength]

/-- The answer to a request that asks for results has those of its rows. -/
theorem Node.respond_result {req : EnlistRequest σ} (hneed : req.needResult = true)
    (outcome : BatchOutcome) : (respond req (.ok outcome)).result = some outcome.previous := by
  simp only [respond, hneed, if_true]

section

variable [HasTopology σ] {n n' : Node σ} {req : EnlistRequest σ} {state state' : σ}
  {answer : EnlistResponse}

/-- A request that is answered with a remap or an error leaves its node as it is. -/
theorem Node.handleRequest_refused (h : n.handleRequest req state = (answer, n', state'))
    (hrefused : answer.remap.isSome ∨ answer.error.isSome) : n' = n := by
  have hending := n.enlist_ending req state
  obtain ⟨rfl, hresult⟩ := Prod.mk.inj h
  obtain rfl : (n.enlist req state).2.1 = n' := congrArg Prod.fst hresult
  generalize n.enlist req state = r at hending hrefused ⊢
  cases hending with
  | rejected he => rfl
  | idle hnone => rfl
  | @committed req' op staged _ hreq hop hstaged hvalid =>
    obtain ⟨hremap, herror⟩ := respond_ok req staged.outcome
    rw [hremap, herror] at hrefused
    rcases hrefused with h | h <;> cases h

/-- A request with an operation that is answered with neither a remap nor an error has its rows
committed, and is answered with their outcome. -/
theorem Node.handleRequest_accepted (h : n.handleRequest req state = (answer, n', state'))
    (hop : req.op.isSome = true) (hremap : answer.remap = none) (herror : answer.error = none) :
    ∃ (req' : EnlistRequest σ) (op : Operation) (staged : Staged),
      req.unmarshal n.loader = (.ok (), req') ∧
      n.state.stageRows (req'.applyContext op) req'.takeRows.1 state = (.ok staged, state') ∧
      n' = { n with state := n.state.commit staged.batch } ∧
      answer = respond req (.ok staged.outcome) := by
  have hending := n.enlist_ending req state
  obtain ⟨rfl, hresult⟩ := Prod.mk.inj h
  rcases hr : n.enlist req state with ⟨outcome, n₁, state₁⟩
  rw [hr] at hending hremap herror hresult
  obtain ⟨rfl, rfl⟩ := Prod.mk.inj hresult
  cases hending with
  | @rejected e _ he =>
    have hreported := respond_error req e
    rw [hremap, herror] at hreported
    rcases hreported with h | h <;> cases h
  | idle hnone =>
    rw [hnone] at hop
    cases hop
  | committed hreq _ hstaged hvalid => exact ⟨_, _, _, hreq, hstaged, rfl, rfl⟩

/-- An answer to a request with an operation, as its caller reads it, is known by the request.
A remap or an error says that the request has left no trace on its node. Anything else says that
it has, and gives a result for each of its rows if results were asked for. -/
theorem Node.handleBytes_answer {e : Enlister σ} {payload bytes : Bytes}
    {response : EnlistResponse} (hreq : n.decodeRequest payload = .ok req) (hshaped : req.Shaped)
    (hop : req.op.isSome = true)
    (hreply : n.handleBytes payload state = (.ok bytes, n', state'))
    (hread : e.readReply bytes = .ok response) :
    response.futureId = req.futureId ∧ response.mini = req.mini ∧
      (response.remap.isSome ∨ response.error.isSome → n' = n) ∧
      (response.remap = none → response.error = none →
        n'.state ≠ n.state ∧
          (req.needResult = true →
            (response.result.getD []).length = req.declaredKeys.length)) := by
  simp only [handleBytes, hreq, Prod.mk.injEq] at hreply
  obtain ⟨hencode, hnode⟩ := hreply
  obtain ⟨result, rfl, hlength⟩ := Enlister.readReply_relays hencode hread
  rcases hhandled : n.handleRequest req state with ⟨answer, n₁, state₁⟩
  rw [hhandled] at hnode hlength
  obtain ⟨rfl, rfl⟩ := hnode
  have hanswer : respond req (n.enlist req state).1 = answer := congrArg Prod.fst hhandled
  obtain ⟨-, hfuture, hmini, -⟩ := respond_echoes req (n.enlist req state).1
  rw [hanswer] at hfuture hmini
  refine ⟨hfuture, hmini, fun hrefused => handleRequest_refused hhandled hrefused,
    fun hremap herror => ?_⟩
  obtain ⟨req', op, staged, hunmarshal, hstaged, rfl, rfl⟩ :=
    handleRequest_accepted hhandled hop hremap herror
  refine ⟨n.state.commit_ne staged.batch, fun hneed => ?_⟩
  obtain ⟨filter, wire, enlisted, hunmarshalled⟩ := EnlistRequest.unmarshal_eq hunmarshal
  have hneed' : req'.needResult = true := by rw [hunmarshalled, hneed]
  have hrows := congrArg List.length (hshaped.unmarshal_keys hunmarshal)
  rw [List.length_map, List.length_map] at hrows
  rw [respond_result hneed] at hlength
  show (result.getD []).length = req.declaredKeys.length
  rw [← Option.getD_map List.length, hlength, ← hrows]
  exact NodeState.stageRows_length hstaged hneed'

end

end Enlistment
