import Enlistment.Proofs.Caller.Accounts
import Enlistment.Proofs.Message.Faults

/-!
# Rows that are refused

A row that cannot be brought into wire form is refused for a reason that names its position in the
caller's batch. A caller that is given such a reason has a row in its batch that is refused for it:
null keys are found when the rows are mapped, and all else when the request of a part is brought
into octets.
-/

namespace Enlistment

variable {σ : Type}

/-- A row of a batch cannot be brought into wire form, for a reason. -/
def Enlister.Refuses (e : Enlister σ) (op : Operation) (row : IndexedRow) (err : MarshalError) :
    Prop :=
  EnlistRequest.convertRow (σ := σ) e.context op row.1 row.2 = .error err

/-- All rows can be brought into wire form. -/
def Enlister.Flawless (e : Enlister σ) (op : Operation) (rows : List IndexedRow) : Prop :=
  ∀ row ∈ rows, ∀ err, ¬e.Refuses op row err

/-! ## Marshalling -/

namespace EnlistRequest

variable {ctx : MarshalContext} {op : Operation} {row : Row} {i : Nat}

/-- The position of a row shows in the reason for which it is refused, and nowhere else. -/
theorem convertRow_at (ctx : MarshalContext) (op : Operation) (i : Nat) (row : Row) (part : Part)
    (j : Nat) (hrow : part.rows[i]? = some (j, row)) :
    convertRow (σ := σ) ctx op j row = (convertRow ctx op i row).mapError part.reindex := by
  have hindex : part.callerIndex i = j := by rw [Part.callerIndex, hrow]
  unfold convertRow
  split
  · simp only [Except.mapError, Part.reindex, hindex]
  · cases row with
    | key k =>
      dsimp only
      split
      · rfl
      · split <;> simp only [Except.mapError, Part.reindex, hindex]
    | entry k v =>
      dsimp only
      split
      · simp only [Except.mapError, Part.reindex, hindex]
      · split
        · simp only [Except.mapError, Part.reindex, hindex]
        · rfl
    | invoke k x =>
      dsimp only
      split
      · rfl
      · simp only [Except.mapError, Part.reindex, hindex]

/-- Rows are refused for the reason of one of them. -/
theorem convertFrom_error {rows : List Row} {index : Nat} {err : MarshalError}
    (h : convertFrom (σ := σ) ctx op index rows = .error err) :
    ∃ i row, rows[i]? = some row ∧ convertRow (σ := σ) ctx op (index + i) row = .error err := by
  obtain ⟨i, row, hrow, hfault, -⟩ := convertFrom_eq_error_iff.mp h
  exact ⟨i, row, hrow, convertRow_eq_error_iff.mpr hfault⟩

/-- Rows that are brought into wire form are so one by one. -/
theorem convertFrom_ok {rows : List Row} {index : Nat} {converted : List (EnlistedRow σ)}
    (h : convertFrom ctx op index rows = .ok converted) {i : Nat} (hrow : rows[i]? = some row) :
    ∃ x, convertRow (σ := σ) ctx op (index + i) row = .ok x := by
  cases hfound : convertRow (σ := σ) ctx op (index + i) row with
  | ok x => exact ⟨x, rfl⟩
  | error e =>
    have hfaulty := (Row.faulty_iff _).mpr ⟨e, convertRow_eq_error_iff.mp hfound⟩
    obtain ⟨err, herr⟩ :=
      exists_convertFrom_error_iff.mpr ⟨row, List.mem_of_getElem? hrow, hfaulty⟩
    cases h.symm.trans herr

end EnlistRequest

/-- A part whose request is refused has a row that is refused for the same reason. -/
theorem Enlister.refuses_of_encodeRequest {e : Enlister σ} {part : Part} {op : Operation}
    {sent : EnlistRequest σ} {err : MarshalError} (hop : sent.op = some op)
    (hpending : sent.pending = some (part.rows.map Prod.snd))
    (h : e.encodeRequest part sent = .error (.marshal err)) :
    ∃ row ∈ part.rows, e.Refuses op row err := by
  unfold encodeRequest at h
  split at h
  · next cause hmarshal =>
    obtain rfl := EnlistError.marshal.inj (Except.error.inj h)
    unfold EnlistRequest.marshal EnlistRequest.marshalRows at hmarshal
    simp only [hpending, hop, EnlistRequest.convertRows] at hmarshal
    cases hconvert : EnlistRequest.convertFrom (σ := σ) e.context op 0
        (part.rows.map Prod.snd) with
    | ok wire => simp [hconvert, Except.map] at hmarshal
    | error cause' =>
      obtain rfl : cause' = cause := by simpa [hconvert, Except.map] using hmarshal
      obtain ⟨i, row, hrow, herror⟩ := EnlistRequest.convertFrom_error hconvert
      rw [List.getElem?_map] at hrow
      obtain ⟨⟨j, row'⟩, hfound, rfl⟩ := Option.map_eq_some_iff.mp hrow
      rw [Nat.zero_add] at herror
      refine ⟨(j, row'), List.mem_of_getElem? hfound, ?_⟩
      rw [Refuses, EnlistRequest.convertRow_at e.context op i row' part j hfound, herror]
      rfl
  · next req _ =>
    cases hchunked : Draft.encodeChunked ⟨.request, WireForm.toRecord req⟩ e.config.chunkSize with
    | error cause => simp [hchunked, Except.mapError] at h
    | ok bytes => simp [hchunked, Except.mapError] at h

/-- A request that is sent has no row that is refused. -/
theorem Letter.Posted.flawless {e : Enlister σ} {call : Call σ} {l : Letter σ}
    (h : l.Posted e call) : e.Flawless call.op l.rows := by
  obtain ⟨part, sent, hfresh, hop, -, -, -, -, -, hsent⟩ := h
  intro row hrow err hrefused
  unfold Enlister.encodeRequest at hsent
  split at hsent
  · cases hsent
  · next req hmarshal =>
    obtain ⟨wire, -, -, -, hconvert, -⟩ := EnlistRequest.marshal_pending hfresh.pending hmarshal
    rw [hop] at hconvert
    simp only [EnlistRequest.convertRows] at hconvert
    cases hrows : EnlistRequest.convertFrom (σ := σ) e.context call.op 0
        (l.rows.map Prod.snd) with
    | error cause => simp [hrows, Except.map] at hconvert
    | ok converted =>
      obtain ⟨i, hi⟩ := List.getElem?_of_mem hrow
      have hfound : (l.rows.map Prod.snd)[i]? = some row.2 := by
        rw [List.getElem?_map, hi]
        rfl
      obtain ⟨x, hx⟩ := EnlistRequest.convertFrom_ok hrows hfound
      let whole : Part := { mini := 0, node := 0, rows := l.rows }
      rw [Nat.zero_add] at hx
      rw [Enlister.Refuses, EnlistRequest.convertRow_at e.context call.op i row.2 whole row.1 hi,
        hx] at hrefused
      cases hrefused

/-! ## Mapping -/

/-- A row whose key is null is refused, whatever the operation. -/
theorem Enlister.refuses_nullKey (e : Enlister σ) (op : Operation) {row : IndexedRow}
    (h : row.2.keyValue.isNull = true) : e.Refuses op row (.nullKey row.1) := by
  unfold Refuses EnlistRequest.convertRow
  rw [if_pos h]

/-- Rows that cannot be mapped for a reason that names a row have a row that is refused for it. -/
theorem Enlister.refuses_of_groupRows {e : Enlister σ} (op : Operation)
    {views : Nat → TopologyView} {rows : List IndexedRow}
    {groups : List (NodeId × List IndexedRow)} {err : MarshalError}
    (h : groupRows e.context views rows groups = .error (.marshal err)) :
    ∃ row ∈ rows, e.Refuses op row err := by
  obtain ⟨row, hrow, hlost⟩ := groupRows_error h
  rcases ownerOf_error hlost with ⟨hnull, heq⟩ | ⟨-, -, heq⟩
  · obtain rfl := EnlistError.marshal.inj heq
    exact ⟨row, hrow, e.refuses_nullKey op hnull⟩
  · cases heq

/-- No row of a batch that is mapped has a null key. -/
theorem keyValue_of_groupRows {ctx : MarshalContext} {views : Nat → TopologyView}
    {rows : List IndexedRow} {groups groups' : List (NodeId × List IndexedRow)}
    (h : groupRows ctx views rows groups = .ok groups') :
    ∀ row ∈ rows, row.2.keyValue.isNull = false := by
  induction rows generalizing groups with
  | nil => exact List.forall_mem_nil _
  | cons row rest ih =>
    unfold groupRows at h
    cases hnode : ownerOf ctx (views row.1) row with
    | error e => simp [hnode, bind, Except.bind] at h
    | ok node =>
      simp only [hnode, bind, Except.bind] at h
      refine List.forall_mem_cons.mpr ⟨?_, ih h⟩
      unfold ownerOf at hnode
      split at hnode
      · cases hnode
      · next hnull => exact eq_false_of_ne_true hnull

/-- Groups have rows. -/
theorem addToGroup_ne_nil {node : NodeId} {row : IndexedRow}
    {groups : List (NodeId × List IndexedRow)} (h : ∀ group ∈ groups, group.2 ≠ []) :
    ∀ group ∈ addToGroup node row groups, group.2 ≠ [] := by
  induction groups with
  | nil =>
    intro group hgroup
    rw [List.mem_singleton.mp hgroup]
    exact List.cons_ne_nil _ _
  | cons first rest ih =>
    obtain ⟨hfirst, hrest⟩ := List.forall_mem_cons.mp h
    unfold addToGroup
    split
    · exact List.forall_mem_cons.mpr ⟨List.cons_ne_nil _ _, h⟩
    · split
      · exact List.forall_mem_cons.mpr ⟨by simp, hrest⟩
      · exact List.forall_mem_cons.mpr ⟨hfirst, ih hrest⟩

/-- Every part of a batch has rows. -/
theorem groupRows_ne_nil {ctx : MarshalContext} {views : Nat → TopologyView}
    {rows : List IndexedRow} {groups groups' : List (NodeId × List IndexedRow)}
    (h : ∀ group ∈ groups, group.2 ≠ []) (hgroups : groupRows ctx views rows groups = .ok groups') :
    ∀ group ∈ groups', group.2 ≠ [] := by
  induction rows generalizing groups with
  | nil =>
    obtain rfl := Except.ok.inj hgroups
    exact h
  | cons row rest ih =>
    unfold groupRows at hgroups
    cases hnode : ownerOf ctx (views row.1) row with
    | error e => simp [hnode, bind, Except.bind] at hgroups
    | ok node =>
      simp only [hnode, bind, Except.bind] at hgroups
      exact ih (addToGroup_ne_nil h) hgroups

/-- A part that cannot be sent because a row is refused has such a row. -/
theorem Enlister.encodeRequest_of_dispatch {e : Enlister σ} {future : FutureId} {part : Part}
    {request : Int64 → EnlistRequest σ} {err : MarshalError}
    (h : (e.dispatch future part request).1 = .error (.marshal err)) :
    e.encodeRequest part (request e.nextMessageId) = .error (.marshal err) := by
  have htransition : ∀ (r r' : Registry) (target : RequestState),
      r.transition (future, part.mini) target ≠ (.error (.marshal err), r') := by
    intro r r' target hr
    unfold Registry.transition at hr
    split at hr
    · cases hr
    · split at hr <;> cases hr
  unfold dispatch at h
  rcases hr : e.registry.register (future, part.mini) with ⟨fault | rx, r⟩ <;> simp only [hr] at h
  · obtain rfl := Except.error.inj h
    unfold Registry.register at hr
    split at hr
    · cases hr
    · dsimp only at hr
      split at hr <;> cases hr
  · cases hencoded : e.encodeRequest part (request e.nextMessageId) with
    | error cause =>
      simp only [launch, hencoded] at h
      split at h
      · next fault r' hfailed =>
        obtain rfl := Except.error.inj h
        exact absurd hfailed (htransition _ _ _)
      · exact congrArg Except.error (Except.error.inj h)
    | ok payload =>
      simp only [launch, hencoded] at h
      split at h
      · next fault r' hfailed =>
        obtain rfl := Except.error.inj h
        exact absurd hfailed (htransition _ _ _)
      · split at h
        · next fault r' hfailed =>
          obtain rfl := Except.error.inj h
          exact absurd hfailed (htransition _ _ _)
        · cases h

/-! ## Rounds -/

namespace RoundOutcome

variable {topology : TopologyVersion} {o o' : RoundOutcome} {parts : List Part}

/-- A round fails because a row is refused only if a part did. -/
theorem ended_of_failure {err : MarshalError}
    (ho : Call.roundOutcome topology o parts = some o') (h : o'.failure = some (.marshal err)) :
    o.failure = some (.marshal err) ∨
      ∃ part ∈ parts, part.stage = .ended (.error (.marshal err)) := by
  refine (exists_failed ho h).imp_right ?_
  rintro ⟨part, hpart, outcome, hstage, herror⟩
  refine ⟨part, hpart, ?_⟩
  cases outcome with
  | error cause => rw [hstage, show cause = .marshal err from Except.error.inj herror]
  | ok response =>
    simp only [Except.bind, EnlistResponse.toResult] at herror
    split at herror <;> cases herror

/-- All parts of a round that is put together have ended, and none of them has failed for good
unless the round has. -/
theorem ended_of_success (ho : Call.roundOutcome topology o parts = some o')
    (hsuccess : o'.failure = none) :
    ∀ part ∈ parts, ∃ outcome, part.stage = .ended outcome ∧
      ∀ err, outcome = .error err → err.isRetriable = true := by
  induction parts generalizing o with
  | nil => exact List.forall_mem_nil _
  | cons part rest ih =>
    unfold Call.roundOutcome at ho
    split at ho
    · next outcome hstage =>
      refine List.forall_mem_cons.mpr ⟨⟨outcome, hstage, fun err herror => ?_⟩, ih ho⟩
      subst herror
      cases hretriable : err.isRetriable with
      | true => rfl
      | false => exact absurd hsuccess (failure_roundOutcome (add_error hretriable) ho)
    · cases ho

end RoundOutcome

end Enlistment
