import Enlistment.Proofs.Caller.PureRequests
import Enlistment.Proofs.Stream.Responses

/-!
# The outcome as its caller sees it

What a node has staged for a request reaches the caller as it is: one slot for each row if
results were asked for, the number of values written, and the failures in order. A remap and an
error never read as an outcome.
-/

namespace Enlistment

open Wire

variable {σ : Type}

/-! ## Rows of a request -/

/-- Requests that can come about: made without rows in wire form or rebuilt rows, read from a
record, or left behind by marshalling, unmarshalling or taking the rows. -/
inductive EnlistRequest.Made : EnlistRequest σ → Prop
  | built {req : EnlistRequest σ} (hwire : req.wire = none) (henlisted : req.enlisted = none) :
      Made req
  | decoded (record : RequestRecord) : Made (WireForm.ofRecord record)
  | marshal {ctx : MarshalContext} {req req' : EnlistRequest σ} (h : Made req)
      (hreq : req.marshal ctx = .ok req') : Made req'
  | unmarshal {req : EnlistRequest σ} (loader : ClassLoader σ) (h : Made req) :
      Made (req.unmarshal loader).2
  | takeRows {req : EnlistRequest σ} (h : Made req) : Made req.takeRows.2

/-- The number of rows that the receiver of a request gets. -/
def EnlistRequest.rowCount (req : EnlistRequest σ) : Nat :=
  match req.wire with
  | some rows => (splitRows rows).length
  | none => (req.enlisted.getD []).length

namespace EnlistRequest

/-- The receiver of a request that is unmarshalled gets all of its rows. -/
theorem unmarshal_rowCount {req req' : EnlistRequest σ} {loader : ClassLoader σ}
    (h : req.unmarshal loader = (.ok (), req')) : req'.takeRows.1.length = req.rowCount := by
  unfold rowCount
  rcases unmarshal_takeRows h with ⟨hwire, hrows⟩ | ⟨rows, hwire, hrows⟩
  · rw [hrows, hwire]
    rfl
  · rw [hwire]
    have hkeys := congrArg List.length (mapM_unmarshalRow_keys hrows)
    rwa [List.length_map, List.length_map] at hkeys

/-- Rows without an operation are not rebuilt. -/
theorem splitRows_eq_nil {rows : WireRows σ} (h : rows.length = 0) : splitRows rows = [] := by
  have hle := length_splitRows_le rows
  rw [WireRows.length] at h
  exact List.length_eq_zero_iff.mp (Nat.le_zero.mp (h ▸ hle))

/-- Unmarshalling a request without an operation leaves it without rows. -/
theorem unmarshal_idle {req : EnlistRequest σ} (loader : ClassLoader σ) (hop : req.op = none)
    (h : req.enlisted.getD [] = []) : (req.unmarshal loader).2.enlisted.getD [] = [] := by
  rcases hr : req.unmarshal loader with ⟨result, req'⟩
  cases unmarshals hr with
  | filterFails | noRows | noOperation | rowFails => exact h
  | rebuilt _ _ hsome hrows =>
    rw [hop, Option.isSome_none, or_iff_right Bool.false_ne_true] at hsome
    rw [splitRows_eq_nil hsome] at hrows
    obtain rfl := Except.ok.inj hrows
    rfl

/-- A request without an operation has no rebuilt rows. -/
theorem Made.idle {req : EnlistRequest σ} (h : req.Made) (hop : req.op = none) :
    req.enlisted.getD [] = [] := by
  induction h with
  | built hwire henlisted => rw [henlisted]; rfl
  | decoded record => rfl
  | marshal h hreq ih =>
    obtain ⟨deployment, addDeployment, wire, rfl, -⟩ := marshal_eq hreq
    exact ih hop
  | @unmarshal req loader h ih =>
    rcases hr : req.unmarshal loader with ⟨result, req'⟩
    obtain ⟨filter, wire, enlisted, hsame⟩ := unmarshal_eq hr
    have hop' : req.op = none := by rwa [hr, hsame] at hop
    rw [← congrArg Prod.snd hr]
    exact unmarshal_idle loader hop' (ih hop')
  | takeRows h ih => rfl

/-- A request without an operation that is unmarshalled has no rows. -/
theorem Made.rowCount_eq_zero {req req' : EnlistRequest σ} {loader : ClassLoader σ} (h : req.Made)
    (hop : req.op = none) (hreq : req.unmarshal loader = (.ok (), req')) : req.rowCount = 0 := by
  have hnone : (req.unmarshal loader).2.enlisted.getD [] = [] :=
    unmarshal_idle loader hop (h.idle hop)
  rw [hreq] at hnone
  rw [← unmarshal_rowCount hreq]
  exact congrArg List.length hnone

end EnlistRequest

/-! ## Results of staged rows -/

/-- Staged rows have one slot each in the results if these were asked for, and none otherwise. -/
theorem NodeState.stageRows_values {s : NodeState} {ctx : ApplyContext σ}
    {rows : List (EnlistedRow σ)} {staged : Staged} {state state' : σ}
    (h : s.stageRows ctx rows state = (.ok staged, state')) :
    ∃ values : List (Option Value), staged.outcome.previous = values.map ReturnValue.ofValue ∧
      values.length = if ctx.needResult then rows.length else 0 := by
  obtain ⟨hlength, htells⟩ := stageFrom_tells h
  rw [htells.previous, List.nil_append]
  split
  · refine ⟨(effectsFrom s.store ctx 0 rows { batch := { writeSeq := s.writeSeq } } state).map
      fun effect => effect.returned.value, ?_, (List.length_map _).trans hlength⟩
    rw [List.map_map]
    refine List.map_congr_left fun effect hmem => ?_
    obtain ⟨v, hv⟩ := (effectsFrom_possible effect hmem).returned_eq
    rw [Function.comp_apply, hv, ReturnValue.value_ofValue]
  · exact ⟨[], rfl, rfl⟩

/-! ## What a node answers -/

namespace Node

/-- The answer to a request that was carried out returns the slots of its rows, if results were
asked for. -/
theorem respond_ok_result (req : EnlistRequest σ) (outcome : BatchOutcome) :
    (respond req (.ok outcome)).result =
      if req.needResult then some outcome.previous else none := by
  simp only [respond, EnlistResponse.withFailures]
  split <;> split <;> rfl

/-- The answer to a request that failed returns nothing. -/
theorem respond_error_result (req : EnlistRequest σ) (e : EnlistError) :
    (respond req (.error e)).result = none := by
  unfold respond
  split
  · rfl
  · rfl
  · next h => cases h

section

variable [HasTopology σ] {n : Node σ} {req : EnlistRequest σ} {state : σ}

/-- A request that is carried out has been unmarshalled. -/
theorem unmarshal_of_enlist {outcome : BatchOutcome} (h : (n.enlist req state).1 = .ok outcome) :
    ∃ req', req.unmarshal n.loader = (.ok (), req') := by
  unfold enlist at h
  split at h
  · cases h
  · split at h
    · cases h
    · next req' hreq => exact ⟨req', hreq⟩

/-- A request that is carried out has one slot in the results for each of its rows if results were
asked for, and none otherwise. It has written at most one value for each row. -/
theorem enlist_values {outcome : BatchOutcome} (hmade : req.Made)
    (h : (n.enlist req state).1 = .ok outcome) :
    outcome.updated.toNat ≤ req.rowCount ∧
      ∃ values : List (Option Value), outcome.previous = values.map ReturnValue.ofValue ∧
        values.length = if req.needResult then req.rowCount else 0 := by
  obtain ⟨req₀, hreq₀⟩ := unmarshal_of_enlist h
  have hending := n.enlist_ending req state
  generalize n.enlist req state = r at hending h
  cases hending with
  | rejected he => cases h
  | idle hop =>
    obtain rfl := Except.ok.inj h
    have hnone := hmade.rowCount_eq_zero hop hreq₀
    refine ⟨Nat.zero_le _, [], rfl, ?_⟩
    rw [hnone, ite_self]
    rfl
  | @committed req' op staged state' hreq hop hstaged hvalid =>
    obtain rfl := Except.ok.inj h
    obtain ⟨filter, wire, enlisted, hsame⟩ := EnlistRequest.unmarshal_eq hreq
    have hneed : (req'.applyContext op).needResult = req.needResult := by rw [hsame]; rfl
    rw [← EnlistRequest.unmarshal_rowCount hreq, ← hneed]
    exact ⟨n.state.stageRows_updated_le hstaged, NodeState.stageRows_values hstaged⟩

end

end Node

/-! ## What the caller makes of an answer -/

/-- A return value that is short enough is read as the value that it was made for. -/
theorem ReturnValue.relayed_ofValue {v : Option Value} (h : ∀ w, v = some w → w.Short) :
    (ofValue v).relayed = complete v := by
  rw [relayed, marshal_ofValue]
  cases v with
  | none => rfl
  | some w =>
    have hw : (ValueObject.complete w).onWire.unmarshal true (fun _ => true) =
        (.ok (), .complete w) := ValueObject.unmarshal_complete (h w rfl) (.inl rfl)
    simp only [complete, onWire, Option.map_some, unmarshal, hw]

section

variable {r : EnlistResponse} {values : Option (List (Option Value))}

/-- A response that returns values is in wire form once it is marshalled. -/
theorem EnlistResponse.filled_of_values
    (hresult : r.result = values.map (List.map ReturnValue.ofValue)) : r.marshal.Filled := by
  intro returned hreturned v hv o ho
  simp only [marshal, hresult, Option.map_map] at hreturned
  obtain ⟨vs, -, rfl⟩ := Option.map_eq_some_iff.mp hreturned
  rw [Function.comp_apply, List.map_map] at hv
  obtain ⟨w, -, rfl⟩ := List.mem_map.mp hv
  rw [Function.comp_apply, ReturnValue.marshal_ofValue] at ho
  obtain ⟨w', -, rfl⟩ := Option.map_eq_some_iff.mp ho
  rfl

/-- The values that a response returns are short if it keeps to a limit of the wire. -/
theorem EnlistResponse.values_short {maxLength : Nat} (hlimit : maxLength ≤ maxWireLength)
    (hresult : r.result = values.map (List.map ReturnValue.ofValue))
    (hwithin : responseLayout.Within maxLength (WireForm.toRecord r.marshal))
    {vs : List (Option Value)} (hvs : values = some vs) {w : Value} (hw : some w ∈ vs) :
    w.Short := by
  have hmarshalled : r.marshal.result = some (vs.map ReturnValue.complete) := by
    simp only [marshal, hresult, hvs, Option.map_some, List.map_map]
    exact congrArg some (List.map_congr_left fun v _ => ReturnValue.marshal_ofValue v)
  have hlength : w.encode.length ≤ maxLength :=
    values_within hwithin hmarshalled (List.mem_map_of_mem hw) rfl rfl
  exact Nat.lt_of_le_of_lt (Nat.le_trans hlength hlimit) (by decide)

/-- A response is rebuilt with the values that it returns by a receiver that knows their classes. -/
theorem EnlistResponse.unmarshal_of_values {maxLength : Nat} {keepBinary : Bool}
    {hasClass : String → Bool} (hlimit : maxLength ≤ maxWireLength)
    (hresult : r.result = values.map (List.map ReturnValue.ofValue))
    (hwithin : responseLayout.Within maxLength (WireForm.toRecord r.marshal))
    (hknown : keepBinary = false → ∀ v ∈ r.result.getD [], ∀ w, v.value = some w →
      w.Known hasClass) :
    r.marshal.onWire.unmarshal keepBinary hasClass =
      (.ok (), { r with result := r.result.map (List.map ReturnValue.relayed) }) := by
  cases hvalues : values with
  | none =>
    have hnone : r.result = none := by rw [hresult, hvalues, Option.map_none]
    rw [unmarshal_empty hnone, hnone, Option.map_none, ← hnone]
  | some vs =>
    have hsome : r.result = some (vs.map ReturnValue.ofValue) := by
      rw [hresult, hvalues, Option.map_some]
    have hshort : ∀ w, some w ∈ vs → w.Short := fun w hw =>
      values_short hlimit hresult hwithin hvalues hw
    have hreturnable : ∀ v ∈ vs, Value.Returnable keepBinary hasClass v := by
      rintro v hv w rfl
      refine ⟨hshort w hv, Value.readable_of_known fun hbinary => ?_⟩
      refine hknown hbinary (.ofValue (some w)) ?_ w rfl
      rw [hsome]
      exact List.mem_map_of_mem hv
    have hrelayed : (vs.map ReturnValue.ofValue).map ReturnValue.relayed =
        vs.map ReturnValue.complete := by
      rw [List.map_map]
      refine List.map_congr_left fun v hv => ReturnValue.relayed_ofValue ?_
      rintro w rfl
      exact hshort w hv
    rw [unmarshal_returned hsome hreturnable, hsome, Option.map_some, hrelayed]

end

namespace Node

variable [HasTopology σ] {n : Node σ} {req : EnlistRequest σ} {state : σ}

/-- The answer to a request returns values if the request was carried out and asked for results,
and otherwise nothing. -/
theorem handleRequest_result (hmade : req.Made) :
    ∃ values : Option (List (Option Value)),
      (n.handleRequest req state).1.result = values.map (List.map ReturnValue.ofValue) := by
  show ∃ values : Option (List (Option Value)),
    (respond req (n.enlist req state).1).result = values.map (List.map ReturnValue.ofValue)
  cases houtcome : (n.enlist req state).1 with
  | error e => exact ⟨none, respond_error_result req e⟩
  | ok outcome =>
    obtain ⟨-, values, hvalues, -⟩ := enlist_values hmade houtcome
    refine ⟨if req.needResult then some values else none, ?_⟩
    rw [respond_ok_result, hvalues]
    split <;> rfl

/-- A request that is answered with neither a remap nor an error has been carried out. -/
theorem enlist_of_answer (hremap : (n.handleRequest req state).1.remap = none)
    (herror : (n.handleRequest req state).1.error = none) :
    ∃ outcome, (n.enlist req state).1 = .ok outcome := by
  replace hremap : (respond req (n.enlist req state).1).remap = none := hremap
  replace herror : (respond req (n.enlist req state).1).error = none := herror
  cases houtcome : (n.enlist req state).1 with
  | ok outcome => exact ⟨outcome, rfl⟩
  | error e =>
    have hreported := respond_error req e
    rw [houtcome] at hremap herror
    rw [hremap, herror] at hreported
    rcases hreported with h | h <;> cases h

/-- The outcome of a request reaches its caller. Let a node answer a request that can come about,
with fewer rows than a list in memory can have, such that no length in the answer is beyond the
limit of its receiver. Through buffers of any size the answer has an encoding, and whichever way
this encoding is cut, the receiver decodes one and the same response from it and nothing else. A
receiver that knows the classes of the returned values unmarshals it. If the answer has neither a
remap nor an error, then the result is what the node has staged: the previous values slot by slot,
with as many slots as rows if results were asked for and none otherwise, the number of values
written, and the failures in order. A remap reads as a mismatch of the version that the request
was sent with, and an error as one of the remote node. -/
theorem outcome_reaches_caller {accepted : List MessageType} {maxLength : Nat} {keepBinary : Bool}
    {hasClass : String → Bool} (hmade : req.Made) (hcount : req.rowCount < 2 ^ 63)
    (haccepted : .response ∈ accepted) (hlimit : maxLength ≤ maxWireLength)
    (hwithin : responseLayout.Within maxLength
      (WireForm.toRecord (n.handleRequest req state).1.marshal))
    (hknown : keepBinary = false → ∀ v ∈ (n.handleRequest req state).1.result.getD [], ∀ w,
      v.value = some w → w.Known hasClass) :
    let answer := (n.handleRequest req state).1
    ∃ decoded received, decoded.unmarshal keepBinary hasClass = (.ok (), received) ∧
      (∀ chunk, ∃ bs,
        (Message.response (σ := σ) answer.marshal).toDraft.encodeChunked chunk = .ok bs ∧
          ∀ pieces : List Bytes, pieces.flatten = bs →
            let result := Decoder.receive { accepted, maxLength } pieces
            result.messages.map Message.ofDraft = [Message.response (σ := σ) decoded] ∧
              result.outcome = .ok () ∧ result.decoder.pending = []) ∧
      (answer.remap = none → answer.error = none → ∃ outcome values,
        (n.enlist req state).1 = .ok outcome ∧
          outcome.previous = values.map ReturnValue.ofValue ∧
          (values = [] ↔ req.needResult = false ∨ req.rowCount = 0) ∧
          received.toResult req.topology =
            .ok { previous := values, updated := outcome.updated, failures := outcome.failures }) ∧
      (∀ current, answer.remap = some current →
        received.toResult req.topology = .error (.topologyMismatch req.topology current)) ∧
      ∀ e, answer.remap = none → answer.error = some e →
        received.toResult req.topology = .error (.remote e.render) := by
  intro answer
  have hreturned : ∃ values : Option (List (Option Value)),
      answer.result = values.map (List.map ReturnValue.ofValue) := handleRequest_result hmade
  obtain ⟨values, hresult⟩ := hreturned
  have hfilled : answer.marshal.Filled := EnlistResponse.filled_of_values hresult
  obtain ⟨hwritable, hlegible⟩ := hfilled.legible (σ := σ) haccepted hlimit hwithin
  refine ⟨answer.marshal.onWire, _,
    EnlistResponse.unmarshal_of_values hlimit hresult hwithin hknown,
    fun chunk => ⟨_, hwritable.encodeChunked_eq chunk, fun pieces hpieces => ?_⟩,
    fun hremap herror => ?_, fun current hremap => ?_, fun e hremap herror => ?_⟩
  · rw [Decoder.receive_encoding hlegible hpieces]
    exact ⟨congrArg (fun m => [m]) (Message.ofDraft_toDraft (.response answer.marshal)), rfl, rfl⟩
  · obtain ⟨outcome, houtcome⟩ := enlist_of_answer hremap herror
    obtain ⟨hupdated, values', hvalues, hlength⟩ := enlist_values hmade houtcome
    have hanswer : answer = respond req (.ok outcome) := congrArg (respond req) houtcome
    refine ⟨outcome, values', houtcome, hvalues, ?_, ?_⟩
    · rw [← List.length_eq_zero_iff, hlength]
      cases req.needResult <;> simp
    · have hprevious : (outcome.relayed req.needResult).previous = values' := by
        cases hneed : req.needResult with
        | false =>
          rw [hneed] at hlength
          exact (List.length_eq_zero_iff.mp hlength).symm
        | true =>
          -- the values are short because they keep to the limit of the receiver
          have hsome : answer.result = (some values').map (List.map ReturnValue.ofValue) := by
            rw [hanswer, respond_ok_result, hneed, if_pos rfl, hvalues, Option.map_some]
          show outcome.previous.map (fun v => v.relayed.value) = values'
          rw [hvalues, List.map_map]
          refine (List.map_congr_left fun v hv => ?_).trans (List.map_id values')
          show (ReturnValue.ofValue v).relayed.value = v
          rw [ReturnValue.relayed_ofValue, ReturnValue.value_complete]
          rintro w rfl
          exact EnlistResponse.values_short hlimit hsome hwithin rfl hv
      rw [respond_toResult req (Nat.lt_of_le_of_lt hupdated hcount) (by rw [← hanswer])]
      exact congrArg (fun previous => Except.ok (EnlistResult.mk previous _ _)) hprevious
  · simp only [EnlistResponse.toResult, hremap]
  · simp only [EnlistResponse.toResult, hremap, herror]

/-- An upsert of two rows, of which one has no value before and the other one has the null value,
encoded through buffers of 20 octets and cut behind its ninth octet. -/
theorem outcome_of_two_rows :
    let view := TopologyView.ofNodes [1] 1
    let n : Node TopologyView :=
      { id := 1, config := {}, loader := .ofRegistrations [] [] [], context := .ofCache 1 1
        state.store.data := [((Value.int 2).encode, [⟨⟨0, 1⟩, some Value.null.encode⟩])] }
    let rows : List Row := [.entry (.int 1) (.text "a"), .entry (.int 2) (.text "b")]
    let req : EnlistRequest TopologyView :=
      { base := { cacheId := 1 }, topology := ⟨1, 0⟩, op := some .upsert, needResult := true
        pending := some rows }
    ∃ marshalled bs decoded received, req.marshal n.context = .ok marshalled ∧
      (Message.response (σ := TopologyView)
        (n.handleRequest marshalled view).1.marshal).toDraft.encodeChunked 20 = .ok bs ∧
      (Decoder.receive { accepted := [.response] } [bs.take 9, bs.drop 9]).messages.map
        Message.ofDraft = [Message.response (σ := TopologyView) decoded] ∧
      decoded.unmarshal false (fun _ => false) = (.ok (), received) ∧
      received.toResult ⟨1, 0⟩ = .ok { previous := [none, some .null], updated := 2 } := by
  intro view n rows req
  let keys := [KeyObject.ofKey n.context (.int 1), .ofKey n.context (.int 2)]
  let marshalled : EnlistRequest TopologyView :=
    { req with
      pending := none
      wire := some (.entries keys [.complete (.text "a"), .complete (.text "b")]) }
  have hmarshal : req.marshal n.context = .ok marshalled := rfl
  have hmade : marshalled.Made := .marshal (.built rfl rfl) hmarshal
  let outcome : BatchOutcome := { previous := [.ofValue none, .ofValue (some .null)], updated := 2 }
  let answer : EnlistResponse :=
    { base := { cacheId := 1 }, result := some outcome.previous, updateCount := 2 }
  have heval : (n.enlist marshalled view).1.toOption.map (fun found =>
      (found.previous.map ReturnValue.value, found.updated, found.failures)) =
        some ([none, some .null], 2, []) := by decide +kernel
  have houtcome : (n.enlist marshalled view).1 = .ok outcome := by
    cases hfound : (n.enlist marshalled view).1 with
    | error e =>
      rw [hfound] at heval
      cases heval
    | ok found =>
      obtain ⟨-, values, hvalues, -⟩ := enlist_values hmade hfound
      obtain ⟨previous, updated, failures⟩ := found
      obtain rfl : previous = values.map ReturnValue.ofValue := hvalues
      rw [hfound] at heval
      obtain ⟨hprevious, rfl, rfl⟩ : _ ∧ updated = 2 ∧ failures = [] := by
        simpa only [Except.toOption, Option.map_some, ReturnValue.map_value_ofValue,
          Option.some.injEq, Prod.mk.injEq] using heval
      rw [hprevious]
      rfl
  have hanswer : (n.handleRequest marshalled view).1 = answer := by
    rw [handleRequest, houtcome]
    rfl
  have hwithin : responseLayout.Within defaultMaxLength (WireForm.toRecord answer.marshal) := by
    have hmarshalled : answer.marshal =
        { base := { cacheId := 1 }, updateCount := 2
          result := some [.complete none, .complete (some .null)] } := rfl
    rw [hmarshalled]
    decide
  have hknown : false = false → ∀ v ∈ answer.result.getD [], ∀ w, v.value = some w →
      w.Known fun _ => false := by
    intro _ v hv w hw
    rcases List.mem_cons.mp hv with rfl | hv
    · cases hw
    · obtain rfl := List.mem_singleton.mp hv
      obtain rfl := Option.some.inj hw
      exact List.forall_mem_nil _
  have haccepted : MessageType.response ∈ [MessageType.response] := List.mem_singleton.mpr rfl
  rw [← hanswer] at hwithin hknown
  obtain ⟨decoded, received, hreceived, hencode, hok, -⟩ :=
    outcome_reaches_caller hmade (by decide) haccepted (by decide) hwithin hknown
  obtain ⟨bs, hbs, hdecode⟩ := hencode 20
  refine ⟨marshalled, bs, decoded, received, hmarshal, hbs, (hdecode _ ?_).1, hreceived, ?_⟩
  · rw [List.flatten_cons, List.flatten_cons, List.flatten_nil, List.append_nil,
      List.take_append_drop]
  · obtain ⟨outcome', values, houtcome', hvalues, -, hresult⟩ :=
      hok (by rw [hanswer]) (by rw [hanswer])
    obtain rfl := Except.ok.inj (houtcome.symm.trans houtcome')
    have hsame := congrArg (List.map ReturnValue.value) hvalues
    rw [ReturnValue.map_value_ofValue] at hsame
    rw [hresult, ← hsame]
    rfl

end Node

end Enlistment
