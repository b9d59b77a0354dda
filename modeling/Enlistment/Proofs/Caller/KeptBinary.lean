import Enlistment.Proofs.Caller.Causes
import Enlistment.Proofs.Caller.PureRequests

/-!
# Values that stay in binary form

A request may ask that values stay in binary form, so that their classes need not be known. A node
then rebuilds all rows without a class, unless a processor or a filter names one. But the caller
rebuilds the previous values in the answer by its own settings and not by those of the request. So
all classes that a call can miss are those of previous values, they are missed by the caller, and
the request whose answer has the values was committed.
-/

namespace Enlistment

variable {σ : Type}

/-! ## Rebuilding -/

/-- A result can only say that a class is not found if values do not stay in binary form and the
class is not known. -/
def ChecksClasses {A : Type} (keepBinary : Bool) (hasClass : String → Bool)
    (r : Except UnmarshalError A) : Prop :=
  ∀ name, r = .error (.classNotFound name) → keepBinary = false ∧ hasClass name = false

section

variable {keepBinary : Bool} {hasClass : String → Bool} {loader : ClassLoader σ}

/-- The only error of checking the classes of a value names one of them that is not known. -/
theorem Value.checkClasses_error {v : Value} {err : UnmarshalError}
    (h : v.checkClasses hasClass = .error err) :
    ∃ name ∈ v.classes, err = .classNotFound name ∧ hasClass name = false := by
  unfold checkClasses at h
  split at h
  · next missing hmissing =>
    have hunknown := List.find?_some hmissing
    refine ⟨missing, List.mem_of_find?_eq_some hmissing, (Except.error.inj h).symm, ?_⟩
    simpa using hunknown
  · cases h

/-- Rebuilding a value can only miss a class that it checks. -/
theorem rebuildValue_checksClasses (bytes : Option Bytes) (cached : Option Value) :
    ChecksClasses keepBinary hasClass (rebuildValue keepBinary hasClass bytes cached).1 := by
  have hcheck : ∀ v : Value, ChecksClasses keepBinary hasClass
      (if keepBinary then Except.ok () else v.checkClasses hasClass) := by
    intro v name h
    split at h
    · cases h
    · next hkeep =>
      obtain ⟨missing, -, heq, hunknown⟩ := Value.checkClasses_error h
      obtain rfl := UnmarshalError.classNotFound.inj heq
      exact ⟨eq_false_of_ne_true hkeep, hunknown⟩
  cases cached with
  | some v => exact hcheck v
  | none =>
    cases bytes with
    | none => exact fun _ h => by cases h
    | some bs =>
      cases hdecode : Value.decode bs with
      | error cause =>
        simp only [rebuildValue, hdecode, Except.mapError]
        exact fun _ h => by cases h
      | ok v =>
        simp only [rebuildValue, hdecode, Except.mapError]
        exact hcheck v

/-- Unmarshalling a return value can only miss a class that it checks. -/
theorem ReturnValue.unmarshal_checksClasses (r : ReturnValue) (keepBinary : Bool)
    (hasClass : String → Bool) :
    ChecksClasses keepBinary hasClass (r.unmarshal keepBinary hasClass).1 := by
  unfold unmarshal
  split
  · exact fun _ h => by cases h
  · exact rebuildValue_checksClasses _ _

/-- The results of a response are checked one by one. -/
theorem EnlistResponse.unmarshal_checksClasses (r : EnlistResponse) (keepBinary : Bool)
    (hasClass : String → Bool) :
    ChecksClasses keepBinary hasClass (r.unmarshal keepBinary hasClass).1 := by
  have heach : ∀ values : List ReturnValue, ChecksClasses keepBinary hasClass
      (unmarshalEach (ReturnValue.unmarshal keepBinary hasClass) values).1 := by
    intro values
    induction values with
    | nil => exact fun _ h => by cases h
    | cons value rest ih =>
      unfold unmarshalEach
      have hvalue := value.unmarshal_checksClasses keepBinary hasClass
      rcases hr : value.unmarshal keepBinary hasClass with ⟨err | _, value'⟩
      · rwa [hr] at hvalue
      · exact ih
  unfold unmarshal
  split
  · exact fun _ h => by cases h
  · exact heach _

/-- A filter that names no class needs that of its operand. -/
theorem Filter.unmarshal_checksClasses {f : Filter σ} (h : f.className = none) :
    ChecksClasses keepBinary loader.hasClass (f.unmarshal keepBinary loader).1 := by
  unfold unmarshal
  rw [h]
  cases hoperand : f.operand with
  | none => exact fun _ h => by cases h
  | some o =>
    have ho : ChecksClasses keepBinary loader.hasClass (o.unmarshal keepBinary loader.hasClass).1 :=
      rebuildValue_checksClasses o.bytes o.value
    dsimp only
    split
    · next err herr => rwa [herr] at ho
    · exact fun _ h => by cases h
    · next heq => cases heq

namespace EnlistRequest

/-- A row that names no processor needs the classes of its key and its value. -/
theorem unmarshalRow_checksClasses {row : EnlistedRow σ} (h : row.invocation? = none) :
    ChecksClasses keepBinary loader.hasClass (unmarshalRow keepBinary loader row) := by
  have hkey : ∀ k : KeyObject,
      ChecksClasses keepBinary loader.hasClass (k.unmarshal keepBinary loader.hasClass).1 :=
    fun k => rebuildValue_checksClasses k.bytes k.value
  have hvalue : ∀ v : ValueObject,
      ChecksClasses keepBinary loader.hasClass (v.unmarshal keepBinary loader.hasClass).1 :=
    fun v => rebuildValue_checksClasses v.bytes v.value
  intro name herror
  cases row with
  | key k =>
    have hk := hkey k name
    rcases hr : k.unmarshal keepBinary loader.hasClass with ⟨err | _, k'⟩ <;>
      simp only [unmarshalRow, hr] at hk herror
    · exact hk (congrArg _ (Except.error.inj herror))
    · cases herror
  | entry k v =>
    have hk := hkey k name
    have hv := hvalue v name
    rcases hr : k.unmarshal keepBinary loader.hasClass with ⟨err | _, k'⟩ <;>
      simp only [unmarshalRow, hr] at hk herror
    · exact hk (congrArg _ (Except.error.inj herror))
    · rcases hr' : v.unmarshal keepBinary loader.hasClass with ⟨err | _, v'⟩ <;>
        simp only [hr'] at hv herror
      · exact hv (congrArg _ (Except.error.inj herror))
      · cases herror
  | invoke k i => cases h

/-- Rows are checked one by one. -/
theorem mapM_checksClasses {A B : Type} {f : A → Except UnmarshalError B} {xs : List A}
    (hf : ∀ x ∈ xs, ChecksClasses keepBinary hasClass (f x)) :
    ChecksClasses keepBinary hasClass (xs.mapM f) := by
  induction xs with
  | nil => exact fun _ h => by cases h
  | cons x rest ih =>
    obtain ⟨hx, hrest⟩ := List.forall_mem_cons.mp hf
    intro name h
    cases hfx : f x with
    | error err =>
      simp only [List.mapM_cons, hfx, bind, Except.bind] at h
      exact hx name (by rw [hfx, Except.error.inj h])
    | ok y =>
      cases hys : rest.mapM f with
      | error err =>
        simp only [List.mapM_cons, hfx, hys, bind, Except.bind] at h
        exact ih hrest name (hys.trans h)
      | ok ys =>
        simp only [List.mapM_cons, hfx, hys, bind, Except.bind] at h
        cases h

/-- A request with a filter and rows that name neither a class nor a processor needs the classes of
its values, unless it asks for the binary form. -/
theorem unmarshal_checksClasses {req : EnlistRequest σ}
    (hfilter : ∀ f, req.filter = some f → f.className = none)
    (hrows : ∀ wire, req.wire = some wire → ∀ row ∈ splitRows wire, row.invocation? = none) :
    ChecksClasses req.keepBinary loader.hasClass (req.unmarshal loader).1 := by
  have hfirst : ChecksClasses req.keepBinary loader.hasClass (req.unmarshalFilter loader).1 := by
    unfold unmarshalFilter
    split
    · exact fun _ h => by cases h
    · next f hf => exact Filter.unmarshal_checksClasses (hfilter f hf)
  have hrebuilt : ∀ wire, req.wire = some wire → ChecksClasses req.keepBinary loader.hasClass
      ((splitRows wire).mapM (unmarshalRow req.keepBinary loader)) := fun wire hwire =>
    mapM_checksClasses fun row hrow => unmarshalRow_checksClasses (hrows wire hwire row hrow)
  rcases hr : req.unmarshal loader with ⟨result, req'⟩
  cases unmarshals hr with
  | noRows | rebuilt | noOperation => exact fun _ h => by cases h
  | filterFails hfails =>
    rw [hfails] at hfirst
    exact hfirst
  | rowFails _ hwire _ hfails =>
    have hrebuilt := hrebuilt _ hwire
    rw [hfails] at hrebuilt
    exact fun name h => hrebuilt name (congrArg _ (Except.error.inj h))

/-- Rows of an operation other than an invocation name no processors. -/
theorem invocation?_of_convertRows {ctx : MarshalContext} {op : Operation} {rows : List Row}
    {wire : WireRows σ} (hop : op ≠ .invoke) (h : convertRows ctx (some op) rows = .ok wire) :
    ∀ row ∈ splitRows wire.onWire, row.invocation? = none := by
  intro row hrow
  rw [splitRows_onWire, splitRows_convertRows h] at hrow
  obtain ⟨form, hform, rfl⟩ := List.mem_map.mp hrow
  obtain ⟨r, hr, rfl⟩ := List.mem_map.mp hform
  obtain ⟨hnone, -⟩ | ⟨o, ho, hfits, -⟩ := convertRows_eq h
  · cases hnone
  · obtain rfl := Option.some.inj ho
    have hfit := hfits r hr
    cases r with
    | key k => rfl
    | entry k v => rfl
    | invoke k i =>
      cases op with
      | invoke => exact absurd rfl hop
      | insert | update | upsert | delete | lock => cases hfit

end EnlistRequest

end

/-! ## Nodes -/

/-- A response with results is that to a request that asks for them and was carried out. -/
theorem Node.respond_result_isSome {req : EnlistRequest σ}
    {outcome : Except EnlistError BatchOutcome}
    (h : (respond req outcome).result.isSome = true) :
    req.needResult = true ∧ ∃ o, outcome = .ok o := by
  unfold respond at h
  split at h
  · cases h
  · cases h
  · next o =>
    refine ⟨?_, o, rfl⟩
    cases hneed : req.needResult with
    | true => rfl
    | false =>
      simp only [hneed, EnlistResponse.withFailures, Bool.false_eq_true, if_false] at h
      split at h <;> cases h

/-- An error that a response reports is the one that the request has failed for. -/
theorem Node.respond_reports {req : EnlistRequest σ} {outcome : Except EnlistError BatchOutcome}
    {m : ErrorMessage} (h : (respond req outcome).error = some m) :
    ∃ err, outcome = .error err ∧ m = .ofError err := by
  cases outcome with
  | ok o =>
    rw [(respond_ok req o).2] at h
    cases h
  | error err =>
    refine ⟨err, rfl, ?_⟩
    unfold respond at h
    split at h
    · cases h
    · next hother =>
      obtain rfl := Except.error.inj hother
      exact (Option.some.inj h).symm
    · next hok => cases hok

section

variable [HasTopology σ] {n : Node σ} {req : EnlistRequest σ} {state : σ}

/-- A node reports a failure of unmarshalling if it cannot rebuild the request for this reason. All
else that it may fail to unmarshal is the octets of a stored value. -/
theorem Node.enlist_unmarshal {cause : UnmarshalError}
    (h : (n.enlist req state).1 = .error (.unmarshal cause)) :
    (req.unmarshal n.loader).1 = .error cause ∨ ∃ fault, cause = .decode fault := by
  have hvalidate : ∀ (view : TopologyView) (requested : TopologyVersion) (partitions : List Int32),
      view.validate requested partitions n.id ≠ .error (.unmarshal cause) := by
    intro view requested partitions
    unfold TopologyView.validate
    split <;> exact nofun
  unfold enlist at h
  cases hpre : n.precheck req state with
  | error err =>
    simp only [hpre] at h
    rw [Except.error.inj h] at hpre
    unfold precheck at hpre
    split at hpre
    · cases hpre
    · split at hpre
      · next hvalid =>
        exact (hvalidate _ _ _ (hvalid.trans (congrArg _ (Except.error.inj hpre)))).elim
      · split at hpre <;> cases hpre
  | ok _ =>
    simp only [hpre] at h
    rcases hreq : req.unmarshal n.loader with ⟨cause' | _, req'⟩ <;> simp only [hreq] at h
    · exact .inl (congrArg _ (EnlistError.unmarshal.inj (Except.error.inj h)))
    · refine .inr ?_
      split at h
      · next hvalid => exact (hvalidate _ _ _ (hvalid.trans (congrArg _ (Except.error.inj h)))).elim
      · split at h
        · cases h
        · unfold applyRows at h
          dsimp only at h
          split at h
          · next hstaged =>
            obtain ⟨fault, rfl⟩ := stageFrom_error hstaged
            exact ⟨fault, (EnlistError.unmarshal.inj (Except.error.inj h)).symm⟩
          · split at h
            · next hvalid =>
              exact (hvalidate _ _ _ (hvalid.trans (congrArg _ (Except.error.inj h)))).elim
            · cases h

/-- A request with an operation that is carried out changes the state of its node. -/
theorem Node.state_ne_of_enlist_ok {o : BatchOutcome} (hop : req.op.isSome = true)
    (h : (n.enlist req state).1 = .ok o) : (n.enlist req state).2.1.state ≠ n.state := by
  have hending := n.enlist_ending req state
  rcases hr : n.enlist req state with ⟨outcome, n', state'⟩
  rw [hr] at hending h
  obtain rfl : outcome = .ok o := h
  cases hending with
  | idle hnone =>
    rw [hnone] at hop
    cases hop
  | @committed req' op staged _ _ _ _ _ => exact n.state.commit_ne staged.batch

end

/-! ## Reading an answer -/

/-- An answer that cannot be read since a class is not found holds results, the caller does not
know the class, and its settings do not keep the binary form. -/
theorem Enlister.readReply_classNotFound {n : Node σ} {e : Enlister σ} {answer : EnlistResponse}
    {bytes : Bytes} {name : String} (hsent : n.encodeResponse answer = .ok bytes)
    (hread : e.readReply bytes = .error (.unmarshal (.classNotFound name))) :
    answer.result.isSome = true ∧ e.context.keepBinary = false ∧
      e.loader.hasClass name = false := by
  have hencode : (Message.response (σ := σ) answer.marshal).toDraft.encodeChunked
      n.config.chunkSize = .ok bytes := mapError_eq_ok.mp hsent
  have hbuilt : (Message.response (σ := σ) answer.marshal).Built :=
    .plain _ (fun f h => by cases h) fun r h => by cases h
  unfold readReply decodeChunked at hread
  rcases hfound : ({ accepted := [MessageType.response] } : Decoder).firstOf
    (bytes.pieces e.config.chunkSize) with ⟨_ | _ | draft, d⟩ <;> simp only [hfound] at hread
  · cases hread
  · cases hread
  · obtain rfl := hbuilt.shaped.found_eq hencode (List.mem_singleton.mpr rfl)
      (Bytes.flatten_pieces _ _) (congrArg Prod.fst hfound)
    simp only [Message.toDraft, EnlistResponse.ofRecord_toRecord] at hread
    have hchecks := answer.marshal.onWire.unmarshal_checksClasses e.context.keepBinary
      e.loader.hasClass name
    split at hread
    · next err _ hunmarshal =>
      obtain rfl := EnlistError.unmarshal.inj (Except.error.inj hread)
      rw [hunmarshal] at hchecks
      refine ⟨?_, hchecks rfl⟩
      cases hresult : answer.result with
      | some values => rfl
      | none =>
        simp only [EnlistResponse.unmarshal, EnlistResponse.onWire, EnlistResponse.marshal, hresult,
          Option.map_none] at hunmarshal
        cases hunmarshal
    · cases hread

/-! ## Wordings -/

/-- Whether a report is of unmarshalling shows in its wording. -/
theorem ErrorMessage.render_unmarshal {m : ErrorMessage} {text : String}
    (h : m.render = (ErrorMessage.mk .unmarshal text).render) : m = ⟨.unmarshal, text⟩ := by
  obtain ⟨kind, text'⟩ := m
  have hchars : (kind.name ++ ": " ++ text').toList = ("Unmarshal" ++ ": " ++ text).toList :=
    congrArg String.toList h
  cases kind with
  | unmarshal => simpa [ErrorKind.name, String.toList_inj] using hchars
  | codec | mvccModeMismatch | unknownCache | internal => simp [ErrorKind.name] at hchars

/-- Whether a class is not found shows in the wording. -/
theorem UnmarshalError.message_classNotFound {cause : UnmarshalError} {name : String}
    (h : cause.message = (classNotFound name).message) : cause = classNotFound name := by
  -- the other wordings start with other letters
  have hother : ∀ text : String, text.toList.head? ≠ some 'c' →
      text ≠ (classNotFound name).message := by
    rintro text htext rfl
    refine htext ?_
    show ("class not found: " ++ name).toList.head? = some 'c'
    simp
  cases cause with
  | classNotFound other => exact congrArg _ ((String.append_right_inj _).mp h)
  | decode e =>
    exact absurd h (hother ("failed to decode cache object: " ++ e.message) (by simp))
  | missingOperation =>
    exact absurd h (hother "rows present but the enlist operation is absent" (by decide))
  | typeMismatch reason => exact absurd h (hother ("type mismatch: " ++ reason) (by simp))

/-- No other error is reported as that a class is not found. -/
theorem ErrorMessage.ofError_classNotFound {err : EnlistError} {name : String}
    (h : (ofError err).render = (ofError (.unmarshal (.classNotFound name))).render) :
    err = .unmarshal (.classNotFound name) := by
  obtain ⟨hkind, htext⟩ := ErrorMessage.mk.inj (render_unmarshal h)
  cases err with
  | unmarshal cause => exact congrArg _ (UnmarshalError.message_classNotFound htext)
  | _ => cases hkind

/-- An error is due to a class that the caller does not find, or a node as it reports. -/
def EnlistError.Misses (err : EnlistError) (name : String) : Prop :=
  err = .unmarshal (.classNotFound name) ∨
    err = .remote (ErrorMessage.ofError (.unmarshal (.classNotFound name))).render

/-- The caller finds no missing classes but in an answer. -/
theorem EnlistError.IsOwn.not_misses {err : EnlistError} (h : err.IsOwn) (name : String) :
    ¬err.Misses name := by
  rintro (rfl | rfl)
  · exact h
  · have htext : "Unmarshal" ++ ": " ++ (UnmarshalError.classNotFound name).message =
        "response does not match the request" := h
    simpa using congrArg String.toList htext

/-! ## Requests -/

/-- A node that can read a request of the caller reads whether values stay in binary form. -/
theorem Node.decodeRequest_keepBinary {n : Node σ} {e : Enlister σ} {part : Part}
    {sent req : EnlistRequest σ} {rows : List Row} {payload : Bytes} (hfresh : sent.Fresh rows)
    (hsent : e.encodeRequest part sent = .ok payload) (hread : n.decodeRequest payload = .ok req) :
    req.keepBinary = sent.keepBinary := by
  obtain ⟨marshalled, hmarshal, -, -, rfl⟩ := decodeRequest_eq hfresh hsent hread
  obtain ⟨deployment, addDeployment, wire, rfl, -⟩ := EnlistRequest.marshal_eq hmarshal
  rfl

variable [HasTopology σ]

/-- A node finds all classes of a request of a call that keeps the binary form. -/
theorem Letter.Posted.enlist_ne {e : Enlister σ} {c : Call σ} {l : Letter σ} (h : l.Posted e c)
    (hop : c.op ≠ .invoke) (hkeep : c.options.keepBinary = true)
    (hclass : ∀ f, c.options.filter = some f → f.className = none) {n : Node σ}
    {req : EnlistRequest σ} (hread : n.decodeRequest l.dispatch.payload = .ok req) (state : σ)
    (name : String) : (n.enlist req state).1 ≠ .error (.unmarshal (.classNotFound name)) := by
  obtain ⟨part, sent, hfresh, hsentOp, -, -, hsentFilter, hsentKeep, -, hsent⟩ := h
  have hconveys := Node.decodeRequest_conveys hfresh hsent hread
  have hkept : req.keepBinary = true := by
    rw [Node.decodeRequest_keepBinary hfresh hsent hread, hsentKeep, hkeep]
  have hfilter : ∀ f, req.filter = some f → f.className = none := by
    intro f hf
    rw [hconveys.filter, hsentFilter] at hf
    obtain ⟨f', hf', rfl⟩ := Option.map_eq_some_iff.mp hf
    exact hclass f' hf'
  have hrows : ∀ wire, req.wire = some wire →
      ∀ row ∈ EnlistRequest.splitRows wire, row.invocation? = none := by
    obtain ⟨wire, hconvert, hwire⟩ := hconveys.rows
    rw [hsentOp] at hconvert
    intro wire' hwire'
    obtain rfl := Option.some.inj (hwire.symm.trans hwire')
    exact EnlistRequest.invocation?_of_convertRows hop hconvert
  intro herror
  rcases Node.enlist_unmarshal herror with hmissing | ⟨fault, hfault⟩
  · have hbinary := (EnlistRequest.unmarshal_checksClasses hfilter hrows name hmissing).1
    rw [hkept] at hbinary
    cases hbinary
  · cases hfault

/-- What a node has answered is the response to the request that it has read. -/
theorem Letter.exists_request {l : Letter σ} {bytes : Bytes} (h : l.reply = some (.ok bytes)) :
    ∃ n state req, l.arrival = some (n, state) ∧ n.decodeRequest l.dispatch.payload = .ok req ∧
      n.encodeResponse (Node.respond req (n.enlist req state).1) = .ok bytes ∧
      l.committed = decide ((n.enlist req state).2.1.state ≠ n.state) := by
  unfold reply at h
  obtain ⟨⟨n, state⟩, harrival, hanswer⟩ := Option.map_eq_some_iff.mp h
  cases hread : n.decodeRequest l.dispatch.payload with
  | error err =>
    simp only [Node.handleBytes, hread] at hanswer
    cases hanswer
  | ok req =>
    simp only [Node.handleBytes, hread] at hanswer
    refine ⟨n, state, req, harrival, hread, hanswer, ?_⟩
    simp only [committed, harrival, Option.any_some, Node.handleBytes, hread, Node.handleRequest]

/-- An answer misses a class only if it has results of a committed request, the caller does not know
the class, and its settings do not keep the binary form. -/
theorem Letter.Posted.brings {e : Enlister σ} {c : Call σ} {l : Letter σ} (h : l.Posted e c)
    (hop : c.op ≠ .invoke) (hkeep : c.options.keepBinary = true)
    (hclass : ∀ f, c.options.filter = some f → f.className = none) {err : EnlistError}
    {name : String} (hbrings : l.Brings e err) (hmisses : err.Misses name) :
    err = .unmarshal (.classNotFound name) ∧ e.context.keepBinary = false ∧
      c.options.needResult = true ∧ e.loader.hasClass name = false ∧ l.committed = true ∧
      ∃ bytes, l.reply = some (.ok bytes) ∧ e.readReply bytes = .error err := by
  obtain ⟨bytes, hreply, hcause⟩ := hbrings
  obtain ⟨n, state, req, harrival, hread, hencoded, hcommitted⟩ := l.exists_request hreply
  have hne := h.enlist_ne hop hkeep hclass hread state name
  rcases hcause with hunread | ⟨response, m, hok, hm, rfl⟩
  · obtain rfl : err = .unmarshal (.classNotFound name) := hmisses.resolve_right fun hremote => by
      subst hremote
      rcases Enlister.readReply_error hunread with ⟨cause, hcause⟩ | ⟨cause, hcause⟩ <;>
        cases hcause
    obtain ⟨hresult, hbinary, hunknown⟩ := Enlister.readReply_classNotFound hencoded hunread
    obtain ⟨hneed, outcome, houtcome⟩ := Node.respond_result_isSome hresult
    obtain ⟨part, sent, hfresh, hsentOp, -, -, -, -, hsentNeed, hsent⟩ := h
    have hcarries := Node.decodeRequest_carries hfresh hsent hread
    have hsome : req.op.isSome = true := by rw [hcarries.op, hsentOp]; rfl
    refine ⟨rfl, hbinary, ?_, hunknown, ?_, bytes, hreply, hunread⟩
    · rw [← hsentNeed, ← hcarries.needResult, hneed]
    · rw [hcommitted]
      exact decide_eq_true (Node.state_ne_of_enlist_ok hsome houtcome)
  · obtain rfl := Enlister.readReply_eq hencoded hok
    obtain ⟨cause, hfailed, rfl⟩ := Node.respond_reports hm
    rcases hmisses with hunmarshal | hremote
    · cases hunmarshal
    · obtain rfl := ErrorMessage.ofError_classNotFound (EnlistError.remote.inj hremote)
      exact absurd hfailed hne

namespace Network

/-- A call that asks for the binary form misses no class but on its own side. Let an enlister that
has been used in any way before call for an operation that is no invocation, with a filter that
names no class. Whatever happens then, no node that one of the requests reaches fails for a missing
class. If the call does, then it has asked for previous values, the caller does not know the class,
its own settings do not keep the binary form, and it cannot read the answer to a request that was
committed. -/
theorem classNotFound_of_keepBinary {e : Enlister σ} (before : List RegistryAction)
    (he : e.registry = before.foldl Registry.perform {}) (nodes : List (Node σ)) (state : σ)
    (future : FutureId) (tx : Transaction) {op : Operation} (hop : op ≠ .invoke) (rows : List Row)
    {options : EnlistOptions σ} (hkeep : options.keepBinary = true)
    (hfilter : ∀ f, options.filter = some f → (Message.filter f).Built ∧ f.className = none)
    (now : Nat) (moves : List (Move σ)) {s : Network σ}
    (hs : (start e nodes state future tx op rows options now).run moves = s) :
    (∀ l ∈ s.letters, ∀ n state req, l.arrival = some (n, state) →
      n.decodeRequest l.dispatch.payload = .ok req → ∀ name,
        (n.enlist req state).1 ≠ .error (.unmarshal (.classNotFound name))) ∧
      ∀ err name, s.call.phase = .ended (.error err) → err.Misses name →
        err = .unmarshal (.classNotFound name) ∧ e.context.keepBinary = false ∧
          options.needResult = true ∧ e.loader.hasClass name = false ∧
          ∃ l ∈ s.letters, l.committed = true ∧
            ∃ bytes, l.reply = some (.ok bytes) ∧ e.readReply bytes = .error err := by
  subst hs
  have hbuilt := fun f hf => (hfilter f hf).1
  have hclass := fun f hf => (hfilter f hf).2
  have hsound : e.registry.Sound := he ▸ Registry.sound_foldl_perform before
  obtain ⟨haccount, hexplained⟩ :=
    explained_run hsound nodes state future tx op rows hbuilt now moves
  generalize (start e nodes state future tx op rows options now).run moves = s
    at haccount hexplained ⊢
  have hposted := haccount.posted
  refine ⟨fun l hl n state req _ hread name =>
    (hposted l hl).enlist_ne hop hkeep hclass hread state name, fun err name hphase hmisses => ?_⟩
  rcases hexplained err hphase with hown | hretriable | ⟨l, hl, hbrings⟩
  · exact absurd hmisses (hown.not_misses name)
  · rcases hmisses with rfl | rfl <;> cases hretriable
  · obtain ⟨herr, hbinary, hneed, hunknown, hcommitted, hanswer⟩ :=
      (hposted l hl).brings hop hkeep hclass hbrings hmisses
    exact ⟨herr, hbinary, hneed, hunknown, l, hl, hcommitted, hanswer⟩

/-- A row is written twice in one batch, first with an object of a class that the caller does not
know. Previous values are asked for and shall stay in binary form. The node commits the batch, and
the caller cannot read the answer. -/
theorem classNotFound_of_object :
    let view := TopologyView.ofNodes [1] 2
    let loader : ClassLoader TopologyView := .ofRegistrations [] [] []
    let node : Node TopologyView := { id := 1, config := {}, loader, context := .ofCache 1 2 }
    let e : Enlister TopologyView := { id := 3, config := {}, loader, context := .ofCache 1 2 }
    let rows := [Row.entry (.int 2) (.object "Person" []), Row.entry (.int 2) (.int 10)]
    let options : EnlistOptions TopologyView := { needResult := true, keepBinary := true }
    let s := (start e [node] view ⟨7⟩ { lock := ⟨1, 1, 1⟩ } .upsert rows options 0).run
      [.event 0 (.map view.readings), .event 0 (.send 0), .arrive 0 0, .answer 1 0, .event 1 (.collect 0),
        .event 1 .close]
    s.call.phase = .ended (.error (.unmarshal (.classNotFound "Person"))) ∧
      e.loader.hasClass "Person" = false ∧ ∃ l ∈ s.letters, l.committed = true := by
  intro view loader node e rows options s
  have hfailure : s.call.phase.failure? = some (.unmarshal (.classNotFound "Person")) := by
    decide +kernel
  have hphase := Phase.failure?_eq_some_iff.mp hfailure
  have hfilter : ∀ f, options.filter = some f →
      (Message.filter f).Built ∧ f.className = none := nofun
  have hs : (start e [node] view ⟨7⟩ { lock := ⟨1, 1, 1⟩ } .upsert rows options 0).run
      [.event 0 (.map view.readings), .event 0 (.send 0), .arrive 0 0, .answer 1 0, .event 1 (.collect 0),
        .event 1 .close] = s := rfl
  obtain ⟨-, hmissing⟩ := classNotFound_of_keepBinary [] rfl [node] view ⟨7⟩ { lock := ⟨1, 1, 1⟩ }
    (by decide) rows rfl hfilter 0 _ hs
  obtain ⟨-, -, -, hunknown, l, hl, hcommitted, -⟩ := hmissing _ _ hphase (.inl rfl)
  exact ⟨hphase, hunknown, l, hl, hcommitted⟩

/-- One transaction stores an object whose class only the node knows. Another one then replaces it,
asks for the previous value and for the binary form, and is reported to have failed since the class
is not found. But the node holds the new value. -/
theorem committed_batch_misses_class :
    let view := TopologyView.ofNodes [1] 2
    let node : Node TopologyView :=
      { id := 1, config := {}, loader := .ofRegistrations ["Person"] [] []
        context := .ofCache 1 2 }
    let e : Enlister TopologyView :=
      { id := 3, config := {}, loader := .ofRegistrations [] [] [], context := .ofCache 1 2 }
    let moves : List (Move TopologyView) :=
      [.event 0 (.map view.readings), .event 0 (.send 0), .arrive 0 0, .answer 1 0, .event 1 (.collect 0),
        .event 1 .close, .event 1 (.map view.readings)]
    let first := (start e [node] view ⟨7⟩ { lock := ⟨1, 1, 1⟩ } .upsert
      [.entry (.int 2) (.object "Person" [])] { keepBinary := true } 0).run moves
    let finished := first.nodes.map fun n => (n.finishTransaction ⟨1, 1, 1⟩).2
    let second := (start first.enlister finished view ⟨8⟩ { lock := ⟨2, 1, 1⟩ } .upsert
      [.entry (.int 2) (.int 10)] { needResult := true, keepBinary := true } 0).run moves
    first.call.phase.result? = some { updated := 1 } ∧
      second.call.phase.failure? = some (.unmarshal (.classNotFound "Person")) ∧
      second.nodes.map (fun n => (n.state.get (.int 2) none).toOption) =
        [some (some (.int 10))] := by
  decide +kernel

end Network

end Enlistment
