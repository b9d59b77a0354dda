import Enlistment.Proofs.Caller.Network

/-!
# Putting a round together

At the end of a round every row has been committed by one request, with its slot filled by the
answer, or is outstanding. The rows of a part whose node has asked for a remap go back to the
outstanding ones; those of a part that was accepted are in a request that has committed them.
-/

namespace Enlistment

variable {σ : Type}

/-! ## Slots -/

namespace EnlistResult

/-- Filling slots adds none and takes none away. -/
theorem length_fillSlots (rows : List IndexedRow) (values slots : List (Option Value)) :
    (fillSlots rows values slots).length = slots.length := by
  induction rows generalizing values slots with
  | nil => rfl
  | cons row rest ih =>
    cases values with
    | nil => rfl
    | cons value values =>
      show (fillSlots rest values (slots.set row.1 value)).length = _
      rw [ih, List.length_set]

/-- The slots of other rows stay as they are. -/
theorem getElem?_fillSlots_of_not_mem {rows : List IndexedRow} {index : Nat}
    (h : index ∉ rows.map Prod.fst) (values slots : List (Option Value)) :
    (fillSlots rows values slots)[index]? = slots[index]? := by
  induction rows generalizing values slots with
  | nil => rfl
  | cons row rest ih =>
    obtain ⟨hne, hrest⟩ := not_or.mp (mt List.mem_cons.mpr h)
    cases values with
    | nil => rfl
    | cons value values =>
      show (fillSlots rest values (slots.set row.1 value))[index]? = _
      rw [ih hrest, List.getElem?_set_ne fun heq => hne heq.symm]

/-- The slot of a row is filled with the value at the position of the row. -/
theorem getElem?_fillSlots {rows : List IndexedRow} {values slots : List (Option Value)} {p : Nat}
    {row : IndexedRow} (hnodup : (rows.map Prod.fst).Nodup) (hlength : values.length = rows.length)
    (hp : rows[p]? = some row) (hlt : row.1 < slots.length) :
    (fillSlots rows values slots)[row.1]? = values[p]? := by
  induction rows generalizing values slots p with
  | nil => cases hp
  | cons first rest ih =>
    obtain ⟨hfirst, hrest⟩ := List.nodup_cons.mp hnodup
    cases values with
    | nil => cases hlength
    | cons value values =>
      show (fillSlots rest values (slots.set first.1 value))[row.1]? = _
      cases p with
      | zero =>
        obtain rfl := Option.some.inj hp
        rw [getElem?_fillSlots_of_not_mem hfirst, List.getElem?_set_self hlt]
        rfl
      | succ p =>
        exact ih hrest (Nat.succ.inj hlength) hp (by rwa [List.length_set])

end EnlistResult

/-! ## Accounts -/

/-- Rows that are numbered in order. -/
def InOrder (rows : List IndexedRow) : Prop := rows.map Prod.fst = List.range rows.length

/-- The answer to a request that was accepted stands in the slots of its rows: the row at a
position of the request has the value at this position of the response, if results were asked
for. -/
def Letter.Stands [HasTopology σ] (e : Enlister σ) (needResult : Bool)
    (previous : List (Option Value)) (l : Letter σ) : Prop :=
  ∃ bytes response, l.reply = some (.ok bytes) ∧ e.readReply bytes = .ok response ∧
    response.remap = none ∧ response.error = none ∧
    (needResult = true → ∀ (p : Nat) (row : IndexedRow), l.rows[p]? = some row →
      ∃ value : ReturnValue, (response.result.getD [])[p]? = some value ∧
        previous[row.1]? = some value.value)

/-- The account of a batch between two rounds: all requests have arrived, every row was committed
by one of them or is outstanding, and the answers stand in the slots of the result. -/
structure Tallied [HasTopology σ] (e : Enlister σ) (call : Call σ) (rows : List IndexedRow)
    (letters : List (Letter σ)) (outstanding : List IndexedRow) (previous : List (Option Value)) :
    Prop where
  arrived : ∀ l ∈ letters, l.arrival.isSome = true
  shared : (letters.flatMap Letter.committedRows ++ outstanding).Perm rows
  stands : ∀ l ∈ letters, l.committed = true → l.Stands e call.options.needResult previous
  length : previous.length = if call.options.needResult then rows.length else 0

/-- A request that was answered has arrived. -/
theorem Letter.arrived_of_reply [HasTopology σ] {l : Letter σ} {answer : Except HandleError Bytes}
    (h : l.reply = some answer) : l.arrival.isSome = true := by
  obtain ⟨a, ha, -⟩ := Option.map_eq_some_iff.mp h
  rw [ha]
  rfl

namespace Tallied

variable [HasTopology σ] {e : Enlister σ} {call : Call σ} {rows outstanding : List IndexedRow}
  {letters : List (Letter σ)} {previous : List (Option Value)} {l : Letter σ}

/-- The order of the requests and that of the outstanding rows do not matter to the account. -/
theorem of_perm {letters' : List (Letter σ)} {outstanding' : List IndexedRow}
    (h : Tallied e call rows letters outstanding previous) (hletters : letters'.Perm letters)
    (houtstanding : outstanding'.Perm outstanding) :
    Tallied e call rows letters' outstanding' previous :=
  ⟨fun l hl => h.arrived l (hletters.mem_iff.mp hl),
    ((hletters.flatMap_right _).append houtstanding).trans h.shared,
    fun l hl => h.stands l (hletters.mem_iff.mp hl), h.length⟩

/-- No request is still on its way between two rounds. -/
theorem arrival_ne_none (h : Tallied e call rows letters outstanding previous) (hl : l ∈ letters) :
    l.arrival ≠ none := by
  intro hnew
  have harrived := h.arrived l hl
  rw [hnew] at harrived
  cases harrived

/-- A request that has committed nothing leaves its rows outstanding. -/
theorem reject (h : Tallied e call rows letters outstanding previous)
    (harrived : l.arrival.isSome = true) (hcommitted : l.committed = false) :
    Tallied e call rows (letters ++ [l]) outstanding previous := by
  refine ⟨?_, ?_, ?_, h.length⟩
  · intro l' hl'
    rcases List.mem_append.mp hl' with hl' | hl'
    · exact h.arrived l' hl'
    · rwa [List.mem_singleton.mp hl']
  · have hrows : l.committedRows = [] := by simp [Letter.committedRows, hcommitted]
    simpa [hrows] using h.shared
  · intro l' hl' hcommitted'
    rcases List.mem_append.mp hl' with hl' | hl'
    · exact h.stands l' hl' hcommitted'
    · rw [List.mem_singleton.mp hl', hcommitted] at hcommitted'
      cases hcommitted'

/-- A request that was accepted has its answer put into the slots of its rows. -/
theorem accept {bytes : Bytes} {response : EnlistResponse} (horder : InOrder rows)
    (h : Tallied e call rows letters (outstanding ++ l.rows) previous)
    (hposted : l.Posted e call) (hreply : l.reply = some (.ok bytes))
    (hread : e.readReply bytes = .ok response) (hremap : response.remap = none)
    (herror : response.error = none) :
    Tallied e call rows (letters ++ [l]) outstanding
      (EnlistResult.fillSlots l.rows ((response.result.getD []).map ReturnValue.value)
        previous) := by
  obtain ⟨hcommitted, hlength⟩ := (hposted.answer hreply hread).2.2 hremap herror
  have harrived := Letter.arrived_of_reply hreply
  have hrows : l.committedRows = l.rows := by simp [Letter.committedRows, hcommitted]
  have hindices : ((letters.flatMap Letter.committedRows ++ (outstanding ++ l.rows)).map
      Prod.fst).Nodup := by
    refine (h.shared.map Prod.fst).nodup_iff.mpr ?_
    rw [horder]
    exact List.nodup_range
  rw [List.map_append, List.map_append] at hindices
  obtain ⟨-, hrest, hdisjoint⟩ := List.nodup_append.mp hindices
  have hnodup : (l.rows.map Prod.fst).Nodup := (List.nodup_append.mp hrest).2.1
  have hstands : ∀ l' ∈ letters, l'.committed = true →
      l'.Stands e call.options.needResult (EnlistResult.fillSlots l.rows
        ((response.result.getD []).map ReturnValue.value) previous) := by
    intro l' hl' hcommitted'
    obtain ⟨bytes', response', hreply', hread', hremap', herror', hslots⟩ :=
      h.stands l' hl' hcommitted'
    refine ⟨bytes', response', hreply', hread', hremap', herror', fun hneed p row hp => ?_⟩
    obtain ⟨value, hvalue, hslot⟩ := hslots hneed p row hp
    refine ⟨value, hvalue, ?_⟩
    rw [EnlistResult.getElem?_fillSlots_of_not_mem, hslot]
    intro hmem
    refine hdisjoint row.1 (List.mem_map_of_mem (List.mem_flatMap.mpr ⟨l', hl', ?_⟩)) row.1
      (List.mem_append_right _ hmem) rfl
    simp only [Letter.committedRows, hcommitted', if_true]
    exact List.mem_of_getElem? hp
  refine ⟨?_, ?_, ?_, (EnlistResult.length_fillSlots _ _ _).trans h.length⟩
  · intro l' hl'
    rcases List.mem_append.mp hl' with hl' | hl'
    · exact h.arrived l' hl'
    · rwa [List.mem_singleton.mp hl']
  · refine List.Perm.trans ?_ h.shared
    rw [List.flatMap_append, List.flatMap_singleton, hrows, List.append_assoc]
    exact List.perm_append_comm.append_left _
  · intro l' hl' hcommitted'
    rcases List.mem_append.mp hl' with hl' | hl'
    · exact hstands l' hl' hcommitted'
    · rw [List.mem_singleton.mp hl']
      refine ⟨bytes, response, hreply, hread, hremap, herror, fun hneed p row hp => ?_⟩
      have hp' : p < (response.result.getD []).length := by
        rw [hlength hneed]
        exact (List.getElem?_eq_some_iff.mp hp).1
      have hrow : row ∈ rows := h.shared.mem_iff.mp
        (List.mem_append_right _ (List.mem_append_right _ (List.mem_of_getElem? hp)))
      have hlt : row.1 < previous.length := by
        rw [h.length, if_pos hneed]
        have hindex := List.mem_map_of_mem (f := Prod.fst) hrow
        rw [horder] at hindex
        exact List.mem_range.mp hindex
      refine ⟨_, List.getElem?_eq_getElem hp', ?_⟩
      rw [EnlistResult.getElem?_fillSlots hnodup (by rw [List.length_map, hlength hneed]) hp hlt,
        List.getElem?_map, List.getElem?_eq_getElem hp']
      rfl

end Tallied

/-! ## Outcomes -/

/-- A part, with the request that was sent for it. -/
abbrev Slot (σ : Type) := Part × Option (Letter σ)

/-- What has come of a part that has ended: an error of the caller, or what was read of the answer
to its request. -/
def Slot.Closed [HasTopology σ] (e : Enlister σ) (call : Call σ) (slot : Slot σ) : Prop :=
  ∀ outcome, slot.1.stage = .ended outcome →
    (∃ err : EnlistError, outcome = .error err ∧ err.IsOwn) ∨
      ∃ l bytes, slot.2 = some l ∧ l.rows = slot.1.rows ∧ l.Posted e call ∧
        l.reply = some (.ok bytes) ∧ e.readReply bytes = outcome

/-- A part that has ended has an error that is not to be tried again, or a response. -/
theorem Slot.Closed.failed_or_answered [HasTopology σ] {e : Enlister σ} {call : Call σ}
    {slot : Slot σ} (h : slot.Closed e call) {outcome : Delivery}
    (hended : slot.1.stage = .ended outcome) :
    (∃ err : EnlistError, outcome = .error err ∧ err.isRetriable = false) ∨
      ∃ l bytes response, slot.2 = some l ∧ l.rows = slot.1.rows ∧ l.Posted e call ∧
        l.reply = some (.ok bytes) ∧ e.readReply bytes = .ok response ∧ outcome = .ok response := by
  rcases h outcome hended with ⟨err, rfl, herr⟩ | ⟨l, bytes, hletter, hrows, hposted, hreply, hread⟩
  · exact .inl ⟨err, rfl, herr.isRetriable⟩
  · cases outcome with
    | error err =>
      refine .inl ⟨err, rfl, ?_⟩
      rcases Enlister.readReply_error hread with ⟨cause, rfl⟩ | ⟨cause, rfl⟩ <;> rfl
    | ok response =>
      exact .inr ⟨l, bytes, response, hletter, hrows, hposted, hreply, hread, rfl⟩

namespace RoundOutcome

variable {topology : TopologyVersion} {o o' : RoundOutcome} {part : Part} {err : EnlistError}

/-- A part that has failed fails its round. -/
theorem add_error (h : err.isRetriable = false) :
    (o.add topology part (.error err)).failure ≠ none := by
  unfold add
  split
  · next hok => cases hok
  · next hmismatch =>
    rw [Except.error.inj hmismatch] at h
    cases h
  · exact Option.some_ne_none _

/-- A round that has failed stays so. -/
theorem failure_add (h : o.failure ≠ none) (outcome : Delivery) :
    (o.add topology part outcome).failure ≠ none := by
  unfold add
  split
  · exact h
  · exact h
  · exact Option.some_ne_none _

/-- A round that has failed stays so. -/
theorem failure_roundOutcome {parts : List Part} (h : o.failure ≠ none)
    (ho : Call.roundOutcome topology o parts = some o') : o'.failure ≠ none := by
  induction parts generalizing o with
  | nil => rwa [← Option.some.inj ho]
  | cons part rest ih =>
    unfold Call.roundOutcome at ho
    split at ho
    · exact ih (failure_add h _) ho
    · cases ho

/-- A round fails for the reason for which one of its parts has. -/
theorem exists_failed {parts : List Part} (ho : Call.roundOutcome topology o parts = some o')
    (h : o'.failure = some err) :
    o.failure = some err ∨ ∃ part ∈ parts, ∃ outcome : Delivery, part.stage = .ended outcome ∧
      (outcome.bind fun response => response.toResult topology) = .error err := by
  induction parts generalizing o with
  | nil => exact .inl (Option.some.inj ho ▸ h)
  | cons part rest ih =>
    unfold Call.roundOutcome at ho
    split at ho
    · next outcome hstage =>
      rcases ih ho with hadded | ⟨found, hfound, hended⟩
      · unfold add at hadded
        split at hadded
        · exact .inl hadded
        · exact .inl hadded
        · next cause _ hcause =>
          cases hfailure : o.failure with
          | some old =>
            rw [hfailure] at hadded
            exact .inl hadded
          | none =>
            rw [hfailure] at hadded
            obtain rfl := Option.some.inj hadded
            exact .inr ⟨part, List.mem_cons_self .., outcome, hstage, hcause⟩
      · exact .inr ⟨found, List.mem_cons_of_mem _ hfound, hended⟩
    · cases ho

/-- A remap is always asked for after somebody has asked for one. -/
theorem askRemap_ne_none (asked : TopologyVersion × MiniId)
    (old : Option (TopologyVersion × MiniId)) : askRemap asked old ≠ none := by
  unfold askRemap
  split
  · exact Option.some_ne_none _
  · split <;> exact Option.some_ne_none _

/-- What a part that has ended without a failure adds to its round. The node has asked for a remap,
and the rows are outstanding, or it has accepted them, and its answer is merged. -/
theorem added_of_closed [HasTopology σ] {e : Enlister σ} {call : Call σ} {slot : Slot σ}
    (h : slot.Closed e call) {outcome : Delivery} (hended : slot.1.stage = .ended outcome)
    (hfailure : (o.add topology slot.1 outcome).failure = none) :
    ∃ l bytes response, slot.2 = some l ∧ l.rows = slot.1.rows ∧ l.Posted e call ∧
      l.reply = some (.ok bytes) ∧ e.readReply bytes = .ok response ∧
      ((∃ current, response.remap = some current ∧
        o.add topology slot.1 outcome = { o with
          remap := askRemap (current, slot.1.mini) o.remap
          outstanding := o.outstanding ++ l.rows }) ∨
        (response.remap = none ∧ response.error = none ∧ ∃ result : EnlistResult,
          result.previous = (response.result.getD []).map ReturnValue.value ∧
          result.failures = response.failures ∧
          o.add topology slot.1 outcome = { o with
            result := o.result.mergePart l.rows result })) := by
  rcases h.failed_or_answered hended with ⟨err, rfl, herr⟩ |
    ⟨l, bytes, response, hletter, hrows, hposted, hreply, hread, rfl⟩
  · exact absurd hfailure (add_error herr)
  · refine ⟨l, bytes, response, hletter, hrows, hposted, hreply, hread, ?_⟩
    cases hasked : response.remap with
    | some current =>
      exact .inl ⟨current, rfl, by
        simp [add, Except.bind, EnlistResponse.toResult, hasked, hrows]⟩
    | none =>
      cases herror : response.error with
      | some m => simp [add, Except.bind, EnlistResponse.toResult, hasked, herror] at hfailure
      | none =>
        refine .inr ⟨rfl, rfl, ⟨(response.result.getD []).map ReturnValue.value,
          if response.updateCount < 0 then 0 else response.updateCount.toUInt64,
          response.failures⟩, rfl, rfl, ?_⟩
        simp only [add, Except.bind, EnlistResponse.toResult, hasked, herror, hrows]

/-- A round puts its outcome together part by part. If no part has failed, then every request has
arrived, the rows of those that were accepted have their slots filled, and the rows of the others
are outstanding, for which a remap is asked. The invariant is the account of the parts so far, with
the rows of the parts to come among the outstanding ones. -/
theorem tallied_roundOutcome [HasTopology σ] {e : Enlister σ} {call : Call σ}
    {rows : List IndexedRow} (horder : InOrder rows) {slots : List (Slot σ)}
    {letters : List (Letter σ)} (hclosed : ∀ slot ∈ slots, slot.Closed e call)
    (h : Tallied e call rows letters (o.outstanding ++ (slots.map Prod.fst).flatMap Part.rows)
      o.result.previous)
    (ho : Call.roundOutcome topology o (slots.map Prod.fst) = some o')
    (hsuccess : o'.failure = none) (hremap : o.remap = none → o.outstanding = []) :
    Tallied e call rows (letters ++ slots.flatMap fun slot => slot.2.toList) o'.outstanding
        o'.result.previous ∧ (o'.remap = none → o'.outstanding = []) := by
  induction slots generalizing o letters with
  | nil =>
    obtain rfl := Option.some.inj ho
    simp only [List.map_nil, List.flatMap_nil, List.append_nil] at h ⊢
    exact ⟨h, hremap⟩
  | cons slot rest ih =>
    obtain ⟨part, letter⟩ := slot
    obtain ⟨hfirst, hrest⟩ := List.forall_mem_cons.mp hclosed
    rw [List.map_cons, Call.roundOutcome] at ho
    rw [List.map_cons, List.flatMap_cons] at h
    cases hstage : part.stage with
    | planned => simp only [hstage] at ho; cases ho
    | sent rx sentAt limitMs => simp only [hstage] at ho; cases ho
    | settled rx => simp only [hstage] at ho; cases ho
    | ended outcome =>
      simp only [hstage] at ho
      have hadded : (o.add topology part outcome).failure = none := by
        by_contra hfailed
        exact failure_roundOutcome hfailed ho hsuccess
      obtain ⟨l, bytes, response, rfl, hrows, hposted, hreply, hread, hadd⟩ :=
        added_of_closed hfirst hstage hadded
      rw [← hrows] at h
      rw [List.flatMap_cons, Option.toList_some, ← List.append_assoc]
      rcases hadd with ⟨current, hasked, hadd⟩ | ⟨hasked, herror, result, hprevious, -, hadd⟩
      · have hrejected : l.committed = false :=
          (hposted.answer hreply hread).2.1 (.inl (by rw [hasked]; rfl))
        rw [hadd] at ho
        rw [← List.append_assoc] at h
        exact ih hrest (h.reject (Letter.arrived_of_reply hreply) hrejected) ho
          fun hnone => absurd hnone (askRemap_ne_none _ _)
      · rw [hadd] at ho
        have hcomm : (o.outstanding ++ (rest.map Prod.fst).flatMap Part.rows ++ l.rows).Perm
            (o.outstanding ++ (l.rows ++ (rest.map Prod.fst).flatMap Part.rows)) := by
          rw [List.append_assoc]
          exact List.perm_append_comm.append_left _
        have hnext :=
          (h.of_perm (.refl _) hcomm).accept horder hposted hreply hread hasked herror
        rw [← hprevious] at hnext
        exact ih hrest hnext ho hremap

end RoundOutcome

end Enlistment
