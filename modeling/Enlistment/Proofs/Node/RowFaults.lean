import Enlistment.Proofs.Node.DecodedRows
import Enlistment.Proofs.Stream.RowShapes

/-!
# Why rows are reported

A row that can be tried is reported for one of four reasons: its key is locked, the filter rejects
it, there is an entry where one is to be inserted, or its processor fails. The rows of decoded
requests can be tried, so nodes never report that their keys are missing or that their shape does
not match the operation.
-/

namespace Enlistment

open Wire

variable {σ : Type}

/-- Why a row is reported that can be tried, and in which words. -/
inductive RowFault (store : Store) (ctx : ApplyContext σ) (index : Nat) (row : EnlistedRow σ) :
    String → Prop
  /-- Another transaction has locked the key. -/
  | locked {owner : LockVersion} (h : store.rival ctx.lock row.keyBytes = some owner) :
      RowFault store ctx index row ("locked by " ++ owner.render)
  | rejected {filter : Filter σ} {state : σ} {current : Option Value}
      (hfilter : ctx.filter = some filter)
      (h : (filter.evaluate state (row.keyObject.value.getD .null) current).1 = false) :
      RowFault store ctx index row (EnlistError.predicateFailure index).message
  | occupied (hop : ctx.op = .insert) : RowFault store ctx index row "entry already exists"
  /-- The processor fails and names the causes itself. -/
  | code {i : InvokeValue σ} {p : EntryProcessor σ} {state : σ} {current : Option Value}
      {causes : CauseChain} (hop : ctx.op = .invoke) (hinvoke : row.invocation? = some i)
      (hcode : i.resolved = some p)
      (h : (p.process state (.ofCurrent (row.keyObject.value.getD .null) current)
        i.argValues).result = .error causes) :
      RowFault store ctx index row causes.message

/-- Whether a reason says that a row has no key, or not the shape of an operation. -/
def BlamesShape (op : Operation) (reason : String) : Prop :=
  reason = "key is not marshalled" ∨ reason = "row shape does not match " ++ op.name

/-- A text that is put together ends as its second part does, if that is not empty. -/
theorem getLast?_toList_append (s t : String) :
    (s ++ t).toList.getLast? = t.toList.getLast?.or s.toList.getLast? := by
  rw [String.toList_append, List.getLast?_append]

/-- What blames the shape of a row ends as no reason does that a node gives for other rows. -/
theorem RowFault.not_blamesShape {store : Store} {ctx : ApplyContext σ} {index : Nat}
    {row : EnlistedRow σ} {reason : String} (h : RowFault store ctx index row reason)
    (hcode : ctx.op ≠ .invoke) (op : Operation) : ¬ BlamesShape op reason := by
  have hblames : ∀ {reason : String}, BlamesShape op reason →
      reason.toList.getLast? ∈ [some 'd', some 't', some 'e', some 'k'] := by
    rintro _ (rfl | rfl)
    · decide
    · cases op <;> decide
  intro hshape
  have hlast := hblames hshape
  cases h with
  | @locked owner h =>
    have hrender : owner.render.toList.getLast? = some ']' := by
      rw [LockVersion.render, getLast?_toList_append]
      rfl
    rw [getLast?_toList_append, hrender] at hlast
    exact absurd hlast (by decide)
  | rejected hfilter h =>
    have hmessage : (EnlistError.predicateFailure index).message.toList.getLast? = some 'r' := by
      show ("row " ++ toString index ++ " rejected by filter").toList.getLast? = _
      rw [getLast?_toList_append]
      rfl
    rw [hmessage] at hlast
    exact absurd hlast (by decide)
  | occupied hinsert => exact absurd hlast (by decide)
  | code hinvoke => exact hcode hinvoke

/-- An accepted row that can be tried is reported for one of the reasons. The cases are those of
the rows, and of the operations that take them. -/
theorem rowEffect_fault {store : Store} {ctx : ApplyContext σ} {index : Nat} {row : EnlistedRow σ}
    {op : Operation} (hop : ctx.op = op) (hready : row.Ready op) {current : Option Value}
    {state : σ} {reason : String}
    (h : (rowEffect op row (row.keyObject.value.getD .null) current state).1.failure =
      some reason) : RowFault store ctx index row reason := by
  cases row with
  | key k =>
    cases op with
    | delete | lock => cases h
    | insert | update | upsert | invoke => cases hready.shape
  | entry k v =>
    cases op with
    | insert =>
      simp only [rowEffect] at h
      split at h
      · obtain rfl := Option.some.inj h
        exact .occupied hop
      · cases h
    | update | upsert => cases h
    | delete | lock => cases hready.shape.1
    | invoke => cases hready.shape.2
  | invoke k i =>
    cases op with
    | invoke =>
      obtain ⟨p, hp⟩ := Option.isSome_iff_exists.mp (hready.code i rfl)
      simp only [rowEffect, hp] at h
      split at h
      · next causes hcauses =>
        obtain rfl := Option.some.inj h
        exact .code hop rfl hp hcauses
      · cases h
    | insert | update | upsert | delete | lock => cases hready.shape

/-- A row that can be tried is reported for one of the reasons. -/
theorem rowOutcome_fault {store : Store} {ctx : ApplyContext σ} {index : Nat}
    {row : EnlistedRow σ} (hready : row.Ready ctx.op)
    {current : Except EnlistError (Option Value)} {state state' : σ} {effect : RowEffect}
    (h : rowOutcome ctx index row (store.rival ctx.lock row.keyBytes) current state =
      (.ok effect, state')) {reason : String} (hreason : effect.failure = some reason) :
    RowFault store ctx index row reason := by
  obtain ⟨key, hkey⟩ := Option.isSome_iff_exists.mp hready.key
  unfold rowOutcome at h
  rw [hkey] at h
  cases hrival : store.rival ctx.lock row.keyBytes with
  | some owner =>
    simp only [hrival] at h
    obtain rfl := Except.ok.inj (Prod.mk.inj h).1
    obtain rfl := Option.some.inj hreason
    exact .locked hrival
  | none =>
    simp only [hrival, acceptedOutcome] at h
    cases current with
    | error e => cases h
    | ok current =>
      dsimp only at h
      split at h
      · next found hverdict =>
        obtain rfl := Except.ok.inj (Prod.mk.inj h).1
        obtain rfl := Option.some.inj hreason
        obtain ⟨filter, hfilter, hevaluate⟩ := Option.map_eq_some_iff.mp hverdict
        exact .rejected hfilter (congrArg Prod.fst hevaluate)
      · obtain rfl := Except.ok.inj (Prod.mk.inj h).1
        exact rowEffect_fault rfl hready hreason

/-! ## Staging -/

/-- Rows that can be tried are reported for one of the reasons, those that are staged behind other
rows as well. -/
theorem effectsFrom_fault {store : Store} {ctx : ApplyContext σ} {rows : List (EnlistedRow σ)}
    (hrows : ∀ row ∈ rows, row.Ready ctx.op) {index : Nat} {s : Staged} {state : σ} {i : Nat}
    {effect : RowEffect} (heffect : (effectsFrom store ctx index rows s state)[i]? = some effect)
    {reason : String} (hreason : effect.failure = some reason) :
    ∃ row, rows[i]? = some row ∧ RowFault store ctx (index + i) row reason := by
  obtain ⟨row, before, now, later, hrow, -, houtcome⟩ := effectsFrom_getElem? heffect
  exact ⟨row, hrow, rowOutcome_fault (hrows row (List.mem_of_getElem? hrow)) houtcome hreason⟩

/-- Whether a failure is that of one of some rows, for a reason why rows are reported that can be
tried. -/
def RowFailure.Explained (store : Store) (ctx : ApplyContext σ) (rows : List (EnlistedRow σ))
    (failure : RowFailure) : Prop :=
  ∃ index row reason, rows[index]? = some row ∧ failure = .ofIndex index reason ∧
    RowFault store ctx index row reason

/-- All failures of a batch of rows that can be tried are explained. -/
theorem NodeState.stageRows_explained {s : NodeState} {ctx : ApplyContext σ}
    {rows : List (EnlistedRow σ)} (hrows : ∀ row ∈ rows, row.Ready ctx.op) {staged : Staged}
    {state state' : σ} (h : s.stageRows ctx rows state = (.ok staged, state')) :
    ∀ failure ∈ staged.outcome.failures, failure.Explained s.store ctx rows := by
  intro failure hfailure
  obtain ⟨-, htells⟩ := stageFrom_tells h
  rw [htells.failures, List.nil_append] at hfailure
  obtain ⟨⟨effect, index⟩, heffect, hreported⟩ := List.mem_flatMap.mp hfailure
  obtain ⟨reason, hreason, rfl⟩ :=
    Option.map_eq_some_iff.mp (Option.mem_toList.mp hreported)
  obtain ⟨row, hrow, hfault⟩ :=
    effectsFrom_fault hrows (List.mem_zipIdx_iff_getElem?.mp heffect) hreason
  rw [Nat.zero_add] at hfault
  exact ⟨index, row, reason, hrow, rfl, hfault⟩

/-! ## Nodes -/

namespace Node

/-- The failures that an answer reports are those of an outcome. -/
theorem mem_failures_respond {req : EnlistRequest σ} {outcome : Except EnlistError BatchOutcome}
    {failure : RowFailure} (h : failure ∈ (respond req outcome).failures) :
    ∃ done, outcome = .ok done ∧ failure ∈ done.failures := by
  cases outcome with
  | error e => cases e <;> cases h
  | ok done =>
    refine ⟨done, rfl, ?_⟩
    have hfailures : (respond req (.ok done)).failures = done.failures := by
      cases hneed : req.needResult <;> cases hdone : done.failures <;>
        simp [respond, EnlistResponse.withFailures, EnlistResponse.withUpdateCount,
          EnlistResponse.ofRequest, EnlistResponse.failures, hneed, hdone]
    rwa [hfailures] at h

variable [HasTopology σ] {n : Node σ} {req : EnlistRequest σ} {op : Operation} {state : σ}

/-- All failures that a node reports for a decoded request are explained. -/
theorem handleRequest_explained (hdecoded : req.Decoded) (hop : req.op = some op) :
    ∀ failure ∈ (n.handleRequest req state).1.failures, ∃ req',
      req.unmarshal n.loader = (.ok (), req') ∧
        failure.Explained n.state.store (req'.applyContext op) req'.takeRows.1 := by
  intro failure hfailure
  obtain ⟨done, hdone, hmem⟩ := mem_failures_respond hfailure
  have hending := n.enlist_ending req state
  generalize n.enlist req state = r at hending hdone
  cases hending with
  | rejected he => cases hdone
  | idle hnone => cases hnone.symm.trans hop
  | @committed req' op' staged state' hreq hop' hstaged hvalid =>
    obtain rfl := Except.ok.inj hdone
    obtain rfl := Option.some.inj (hop'.symm.trans hop)
    exact ⟨req', hreq,
      NodeState.stageRows_explained (hdecoded.ready hop hreq) hstaged failure hmem⟩

end Node

/-! ## From the octets to the failures -/

/-- A request that is received on its own comes from a decoder, and its octets are the fields of a
request with rows that are allowed. -/
theorem decoded_of_receive {accepted : List MessageType} {maxLength : Nat}
    (htype : .request ∈ accepted) {pieces : List Bytes} {record : RequestRecord}
    (h : Decoder.receive { accepted, maxLength } pieces =
      ⟨[⟨.request, record⟩], .ok (), { accepted, maxLength }⟩) :
    (WireForm.ofRecord record : EnlistRequest σ).Decoded ∧
      ∃ arrived, requestLayout.Formed (min maxLength maxWireLength) arrived pieces.flatten ∧
        arrivedRowsAllowed arrived = true ∧ (requestLayout.settle arrived).2 = record := by
  have hspells := Decoder.receive_spells h
  have hnext := Decoder.next_spelled htype hspells []
  rw [List.append_nil] at hnext
  obtain ⟨arrived, hformed, hsettle⟩ := hspells.formed
  refine ⟨.next (.feed pieces.flatten .fresh) hnext, arrived, hformed, ?_, ?_⟩
  · exact (requestLayout_settle_isOk_iff hformed).mp (congrArg Prod.fst hsettle)
  · exact congrArg Prod.snd hsettle

/-- Octets bring the rows of an operation or no request. Let them be the fields of a request, one
behind the other and cut in any way. They are received as this request if its keys and its values
make up rows of its operation, and are refused as malformed otherwise; nothing else is received as
a request on its own. Unmarshalling a request from a decoder goes through rows with all of its
keys, values and invocations, and if it does not fail then it gives such rows. If the request has an
operation then all of them can be tried. So the failures that come up when its rows are staged, and
those that a node reports for it, are explained by a lock, by the filter, by an entry in the way or
by the processor of the row, and none blames the shape of a row or a missing key, unless the
processor does. -/
theorem decoded_rows_exact [HasTopology σ] {accepted : List MessageType} (maxLength : Nat)
    (htype : .request ∈ accepted) (pieces : List Bytes) :
    (∀ arrived, requestLayout.Formed (min maxLength maxWireLength) arrived pieces.flatten →
      (arrivedRowsAllowed arrived = true →
        Decoder.receive { accepted, maxLength } pieces =
          ⟨[⟨.request, (requestLayout.settle arrived).2⟩], .ok (), { accepted, maxLength }⟩) ∧
      (arrivedRowsAllowed arrived = false → ∃ fault last,
        Decoder.receive { accepted, maxLength } pieces =
          ⟨[], .error (.invalidPayload fault), last⟩)) ∧
    (∀ record, Decoder.receive { accepted, maxLength } pieces =
        ⟨[⟨.request, record⟩], .ok (), { accepted, maxLength }⟩ →
      (WireForm.ofRecord record : EnlistRequest σ).Decoded ∧
        ∃ arrived, requestLayout.Formed (min maxLength maxWireLength) arrived pieces.flatten ∧
          arrivedRowsAllowed arrived = true ∧ (requestLayout.settle arrived).2 = record) ∧
    (∀ (n : Node σ) payload req, n.decodeRequest payload = .ok req → req.Decoded) ∧
    ∀ req : EnlistRequest σ, req.Decoded →
      (∀ rows, req.wire = some rows →
        EnlistRequest.CameThrough req.wire (EnlistRequest.splitRows rows)) ∧
      (∀ loader req', req.unmarshal loader = (.ok (), req') →
        EnlistRequest.CameThrough req.wire req'.takeRows.1 ∧
          ∀ op, req.op = some op → (∀ row ∈ req'.takeRows.1, row.Ready op) ∧
            ∀ (s : NodeState) (state state' : σ) staged,
              s.stageRows (req'.applyContext op) req'.takeRows.1 state = (.ok staged, state') →
              ∀ failure ∈ staged.outcome.failures,
                failure.Explained s.store (req'.applyContext op) req'.takeRows.1) ∧
      ∀ op, req.op = some op → ∀ (n : Node σ) (state : σ),
        ∀ failure ∈ (n.handleRequest req state).1.failures,
          (∃ req', req.unmarshal n.loader = (.ok (), req') ∧
            failure.Explained n.state.store (req'.applyContext op) req'.takeRows.1) ∧
          (op ≠ .invoke → ¬ BlamesShape op failure.reason) := by
  refine ⟨fun arrived hformed => Decoder.receive_request htype hformed,
    fun record hrecord => decoded_of_receive htype hrecord,
    fun n payload req hread => Node.decoded_of_decodeRequest hread, fun req hdecoded =>
      ⟨fun rows hwire => (hdecoded.split hwire).2.2, fun loader req' hreq =>
        ⟨hdecoded.cameThrough hreq, fun op hop => ?_⟩, ?_⟩⟩
  · have hready := hdecoded.ready hop hreq
    exact ⟨hready, fun _ _ _ _ hstaged => NodeState.stageRows_explained hready hstaged⟩
  intro op hop n state failure hfailure
  obtain ⟨req', hreq, hexplained⟩ := Node.handleRequest_explained hdecoded hop failure hfailure
  refine ⟨⟨req', hreq, hexplained⟩, fun hcode => ?_⟩
  obtain ⟨index, row, reason, -, rfl, hfault⟩ := hexplained
  exact hfault.not_blamesShape hcode op

/-- A node that reads an insert twice reports the second time that there is an entry. With a key
more than values the insert is malformed. -/
theorem decoded_rows_exact_of_insert :
    let view := TopologyView.ofNodes [1] 1
    let start : Node TopologyView :=
      { id := 1, config := {}, loader := .ofRegistrations [] [] [], context := .ofCache 1 1 }
    let keys := [KeyObject.ofKey start.context (.int 3)]
    let values := [(ValueObject.ofValue (.int 4)).marshal]
    let insert : WireRows TopologyView → EnlistRequest TopologyView := fun rows =>
      { base := { cacheId := 1 }, topology := ⟨1, 0⟩, op := some .insert, wire := some rows }
    let octets : WireRows TopologyView → Bytes := fun rows =>
      requestLayout.encode (WireForm.toRecord (insert rows))
    let receive : Bytes → Received := fun bs =>
      Decoder.receive { accepted := [.request], maxLength := 64 } [bs.take 9, bs.drop 9]
    let n := (start.handleBytes (octets (.entries keys values)) view).2.1
    MessageType.request ∈ [MessageType.request] ∧
      (∃ record last, receive (octets (.entries keys values)) =
        ⟨[⟨.request, record⟩], .ok (), last⟩) ∧
      (∃ fault last, receive (octets (.entries (keys ++ keys) values)) =
        ⟨[], .error (.invalidPayload fault), last⟩) ∧
      ∃ req : EnlistRequest TopologyView,
        n.decodeRequest (octets (.entries keys values)) = .ok req ∧
        (n.handleRequest req view).1.failures = [⟨0, "entry already exists"⟩] ∧
        ¬ BlamesShape .insert "entry already exists" := by
  intro view start keys values insert octets receive n
  have hformed : ∀ known : List KeyObject, known.length ≤ 2 → (∀ k ∈ known, k ∈ keys) →
      requestLayout.Formed (min 64 maxWireLength)
        (requestLayout.arrived (WireForm.toRecord (insert (.entries known values))))
        (octets (.entries known values)) := by
    intro known hcount hknown
    refine requestLayout.formed_encode requestLayout_handsOver ?_ ?_
    · simp [insert, WireForm.toRecord, requestLayout, topologyLayout, lockLayout, keyLayout,
        valueLayout, baseFields, MessageBase.toSlots, WireRows.toSlots, Layout.plain,
        Layout.Arrives, Layout.Sound, Fields.Arrives, Field.Arrives, Fields.arrived, Field.arrived,
        Field.tag]
      decide
    · have hkeys : ∀ k ∈ known, ∀ bs, k.bytes = some bs → bs.length ≤ 64 := by
        intro k hk bs hbs
        obtain rfl := List.mem_singleton.mp (hknown k hk)
        obtain rfl := Option.some.inj hbs
        decide
      have hvalue : ∀ bs, (ValueObject.ofValue (.int 4)).marshal.bytes = some bs →
          bs.length ≤ 64 := by
        intro bs hbs
        obtain rfl := Option.some.inj hbs
        decide
      simp [insert, WireForm.toRecord, requestLayout, topologyLayout, lockLayout, keyLayout,
        valueLayout, baseFields, MessageBase.toSlots, WireRows.toSlots, WireRows.keys, Layout.plain,
        Layout.Within, Fields.Within, Field.Within, maxWireLength, values]
      exact ⟨⟨by omega, hkeys⟩, hvalue⟩
  have hpieces : ∀ bs : Bytes, [bs.take 9, bs.drop 9].flatten = bs := by simp
  have hmem : MessageType.request ∈ [MessageType.request] := List.mem_singleton_self _
  have hexact := fun pieces => decoded_rows_exact (σ := TopologyView) 64 hmem pieces
  have hinsert := hformed keys (by decide) fun k hk => hk
  have hshort := hformed (keys ++ keys) (by decide) fun k hk => by simpa using hk
  have hanswer : (n.decodeRequest (octets (.entries keys values))).map
      (fun req => (req.op, (n.handleRequest req view).1.failures)) =
        .ok (some .insert, [⟨0, "entry already exists"⟩]) := by decide +kernel
  refine ⟨hmem, ?_, ?_, ?_⟩
  · rw [← hpieces (octets _)] at hinsert
    exact ⟨_, _, ((hexact _).1 _ hinsert).1 (by decide +kernel)⟩
  · rw [← hpieces (octets _)] at hshort
    exact ((hexact _).1 _ hshort).2 (by decide +kernel)
  · cases hread : n.decodeRequest (octets (.entries keys values)) with
    | error e =>
      rw [hread] at hanswer
      cases hanswer
    | ok req =>
      rw [hread] at hanswer
      obtain ⟨hop, hfailures⟩ := Prod.mk.inj (Except.ok.inj hanswer)
      obtain ⟨-, -, hdecoded, hrows⟩ := hexact []
      refine ⟨req, rfl, hfailures, ?_⟩
      exact ((hrows req (hdecoded n _ req hread)).2.2 .insert hop n view ⟨0, "entry already exists"⟩
        (hfailures ▸ List.mem_singleton_self _)).2 (by decide)

end Enlistment
