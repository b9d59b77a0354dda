import Enlistment.Proofs.Caller.Receivers
import Mathlib.Data.List.Basic

/-!
# Correlation of responses

A registry matches responses with the requests in flight. Whatever is done to it, a request goes
through its lifecycle step by step, a receiver gets the response to its own request and gets it
once, and nothing that is done to one request concerns another.
-/

namespace Enlistment

/-- The key of the request that an action is about. -/
def RegistryAction.key? : RegistryAction → Option RequestKey
  | register key | transition key _ | fail key _ | complete key => some key
  | respond response => some (response.futureId, response.mini)
  | cancel _ | poll _ | drop _ => none

/-- Only a request that has been sent can be answered. -/
theorem RequestState.answered_iff {state : RequestState} {remapped : Bool} :
    state.canTransition (if remapped then .retryTopology else .acked) = true ↔ state = .sent := by
  cases state <;> cases remapped <;> decide

/-! ## Receivers -/

/-- What becomes of a receiver: it is told one outcome or closed, the outcome is taken once, and it
may be given up at any time. -/
inductive Receiver.Moves : Receiver → Receiver → Prop
  | stays (receiver : Receiver) : Moves receiver receiver
  | told (outcome : Delivery) : Moves .waiting (.delivered outcome)
  | closes : Moves .waiting .closed
  | taken (outcome : Delivery) : Moves (.delivered outcome) .closed
  | givenUp (receiver : Receiver) : Moves receiver .dropped

namespace Receiver.Moves

variable {a b c : Receiver}

/-- What becomes of a receiver in two steps may become of it in one. -/
theorem trans (h : Moves a b) (h' : Moves b c) : Moves a c := by
  cases h with
  | stays => exact h'
  | told outcome =>
    cases h' with
    | stays => exact .told outcome
    | taken => exact .closes
    | givenUp => exact .givenUp _
  | closes =>
    cases h' with
    | stays => exact .closes
    | givenUp => exact .givenUp _
  | taken outcome =>
    cases h' with
    | stays => exact .taken outcome
    | givenUp => exact .givenUp _
  | givenUp =>
    cases h' with
    | stays => exact .givenUp _
    | givenUp => exact .givenUp _

/-- A receiver that does not wait any more never waits again. -/
theorem ne_waiting (h : Moves a b) (ha : a ≠ .waiting) : b ≠ .waiting := by
  cases h with
  | stays => exact ha
  | told outcome => exact absurd rfl ha
  | closes => exact absurd rfl ha
  | taken outcome => exact Receiver.noConfusion
  | givenUp => exact Receiver.noConfusion

/-- A receiver is told nothing unless it waits. -/
theorem of_delivered {outcome : Delivery} (h : Moves a (.delivered outcome)) :
    a = .delivered outcome ∨ a = .waiting := by
  cases h with
  | stays => exact .inl rfl
  | told => exact .inr rfl

end Receiver.Moves

namespace Registry

/-- A position that reads as anything but given up was handed out. -/
theorem lt_of_receiver {r : Registry} {rx : Nat} (h : r.receiver rx ≠ .dropped) :
    rx < r.receivers.length := by
  refine Nat.lt_of_not_le fun hle => h ?_
  rw [receiver, List.getD_eq_getElem?_getD, List.getElem?_eq_none hle, Option.getD_none]

/-- Closing one receiver moves every receiver. -/
theorem moves_close (r : Registry) (waiter : Option Nat) (rx : Nat) :
    (r.receiver rx).Moves ((r.close waiter).receiver rx) := by
  unfold close
  split
  · exact .stays _
  · split
    · next hwaiting =>
      rw [receiver_set]
      split
      · next h => rw [← h.1, hwaiting]; exact .closes
      · exact .stays _
    · exact .stays _

/-- Telling one receiver an outcome moves every receiver. -/
theorem moves_deliver (r : Registry) (waiter : Option Nat) (outcome : Delivery) (rx : Nat) :
    (r.receiver rx).Moves ((r.deliver waiter outcome).2.receiver rx) := by
  unfold deliver
  split
  · exact .stays _
  · split
    · next hwaiting =>
      rw [receiver_set]
      split
      · next h => rw [← h.1, hwaiting]; exact .told outcome
      · exact .stays _
    · exact .stays _

/-- Cancelling an operation moves every receiver. -/
theorem moves_cancel (r : Registry) (future : FutureId) (rx : Nat) :
    (r.receiver rx).Moves ((r.cancel future).2.receiver rx) :=
  cancel_invariant (P := fun r' => (r.receiver rx).Moves (r'.receiver rx)) (.stays _)
    fun r' waiter h => h.trans (r'.moves_close waiter rx)

/-- A receiver that is handed out waits, and the others are as before. -/
theorem receiver_append (inFlight : List (RequestKey × MiniFuture)) (receivers : List Receiver)
    (rx : Nat) : ({ inFlight, receivers := receivers ++ [.waiting] } : Registry).receiver rx =
      if rx = receivers.length then .waiting else receivers.getD rx .dropped := by
  simp only [receiver, List.getD_eq_getElem?_getD, List.getElem?_append, List.getElem?_singleton]
  grind

/-- A registration moves every receiver, and a new one waits. -/
theorem moves_register (r : Registry) (key : RequestKey) (rx : Nat) :
    (r.receiver rx).Moves ((r.register key).2.receiver rx) ∨
      (r.receivers.length ≤ rx ∧ (r.register key).2.receiver rx = .waiting) := by
  unfold register
  split
  · dsimp only
    rw [receiver_append]
    split
    · next heq => exact .inr ⟨Nat.le_of_eq heq.symm, rfl⟩
    · exact .inl (.stays _)
  · next entry hfind =>
    split
    · have hclosed := r.moves_close entry.waiter rx
      obtain ⟨receivers, heq, hlength, -⟩ := r.close_eq entry.waiter
      rw [heq] at hclosed ⊢
      dsimp only
      rw [receiver_append]
      split
      · next heq => exact .inr ⟨by omega, rfl⟩
      · exact .inl hclosed
    · exact .inl (.stays _)

/-- A response is accepted for a request that has been sent. It is delivered to the receiver of this
request, which waits for nothing more. -/
theorem onResponse_cases (r : Registry) (response : EnlistResponse) :
    r.onResponse response = (false, r) ∨
      ∃ (entry : MiniFuture) (r' : Registry),
        r.find? (response.futureId, response.mini) = some entry ∧ entry.state = .sent ∧
        r'.receivers = r.receivers ∧
        (∀ k, r'.find? k = if k = (response.futureId, response.mini) then
          (if response.remap.isSome then some { entry with state := .retryTopology, waiter := none }
            else none) else r.find? k) ∧
        r.onResponse response = r'.deliver entry.waiter (.ok response) := by
  unfold onResponse
  dsimp only
  cases hfind : r.find? (response.futureId, response.mini) with
  | none => exact .inl rfl
  | some entry =>
    by_cases hsent : entry.state = .sent
    · refine .inr ⟨entry, _, rfl, hsent, ?_, fun k => ?_,
        if_pos (RequestState.answered_iff.mpr hsent)⟩
      · split <;> rfl
      · cases response.remap with
        | none =>
          simp only [Option.isSome_none, Bool.false_eq_true, if_false, RequestState.isTerminal,
            if_true, find?_remove, find?_modify]
          grind
        | some current =>
          simp only [Option.isSome_some, if_true, RequestState.isTerminal, Bool.false_eq_true,
            if_false, find?_modify]
          grind
    · exact .inl (if_neg fun hstep => hsent (RequestState.answered_iff.mp hstep))

/-- An action moves every receiver, and a new one waits. -/
theorem moves_perform (r : Registry) (action : RegistryAction) (rx : Nat) :
    (r.receiver rx).Moves ((r.perform action).receiver rx) ∨
      (r.receivers.length ≤ rx ∧ (r.perform action).receiver rx = .waiting) := by
  cases action with
  | register key => exact r.moves_register key rx
  | transition key target =>
    simp only [perform, transition]
    split
    · exact .inl (.stays _)
    · split <;> exact .inl (.stays _)
  | respond response =>
    rcases r.onResponse_cases response with heq | ⟨entry, r', -, -, hreceivers, -, heq⟩ <;>
      simp only [perform, heq]
    · exact .inl (.stays _)
    · have hsame : r'.receiver rx = r.receiver rx := by rw [receiver, receiver, hreceivers]
      exact .inl (hsame ▸ r'.moves_deliver _ _ rx)
  | fail key e =>
    simp only [perform, onFailure]
    split
    · exact .inl (.stays _)
    · exact .inl ((r.remove key).moves_deliver _ _ rx)
  | complete key =>
    simp only [perform, complete]
    split
    · exact .inl (.stays _)
    · exact .inl ((r.remove key).moves_close _ rx)
  | cancel future => exact .inl (r.moves_cancel future rx)
  | poll rx' =>
    simp only [perform, poll]
    split
    · next outcome hdelivered =>
      rw [receiver_set]
      split
      · next h => rw [← h.1, hdelivered]; exact .inl (.taken outcome)
      · exact .inl (.stays _)
    · exact .inl (.stays _)
  | drop rx' =>
    simp only [perform, drop]
    split
    · exact .inl (.stays _)
    · rw [receiver_set]
      split
      · exact .inl (.givenUp _)
      · exact .inl (.stays _)

/-- An action hands a receiver an outcome that it did not have. -/
def Gives (r : Registry) (action : RegistryAction) (rx : Nat) (outcome : Delivery) : Prop :=
  r.receiver rx ≠ .delivered outcome ∧ (r.perform action).receiver rx = .delivered outcome

/-- Only a receiver that waits is given anything. -/
theorem Gives.waiting {r : Registry} {action : RegistryAction} {rx : Nat} {outcome : Delivery}
    (h : r.Gives action rx outcome) : r.receiver rx = .waiting := by
  obtain ⟨hnew, hdelivered⟩ := h
  rcases r.moves_perform action rx with hmoves | ⟨-, hwaiting⟩
  · rw [hdelivered] at hmoves
    exact hmoves.of_delivered.resolve_left hnew
  · rw [hdelivered] at hwaiting
    cases hwaiting

/-- A receiver that was given an outcome is given no other one, whatever is done later. -/
theorem Gives.once {r : Registry} {action : RegistryAction} {rx : Nat} {outcome : Delivery}
    (h : r.Gives action rx outcome) (later : List RegistryAction) (action' : RegistryAction)
    (outcome' : Delivery) :
    ¬(later.foldl perform (r.perform action)).Gives action' rx outcome' := by
  have hstays : ∀ r' : Registry, rx < r'.receivers.length → r'.receiver rx ≠ .waiting →
      (later.foldl perform r').receiver rx ≠ .waiting := by
    induction later with
    | nil => exact fun _ _ h => h
    | cons next rest ih =>
      intro r' hlt hgiven
      obtain ⟨_, _, htells, -⟩ := r'.tells_perform next
      refine ih _ (Nat.lt_of_lt_of_le hlt htells.length_le) ?_
      rcases r'.moves_perform next rx with hmoves | ⟨hle, -⟩
      · exact hmoves.ne_waiting hgiven
      · exact absurd hlt (Nat.not_lt.mpr hle)
  intro hagain
  refine hstays _ (lt_of_receiver ?_) ?_ hagain.waiting <;>
    · rw [h.2]
      exact Receiver.noConfusion

/-! ## Requests -/

/-- Closing a receiver leaves all requests alone. -/
theorem find?_close (r : Registry) (waiter : Option Nat) (k : RequestKey) :
    (r.close waiter).find? k = r.find? k := by
  obtain ⟨receivers, heq, -⟩ := r.close_eq waiter
  rw [heq]
  rfl

/-- Telling a receiver an outcome leaves all requests alone. -/
theorem find?_deliver (r : Registry) (waiter : Option Nat) (outcome : Delivery) (k : RequestKey) :
    (r.deliver waiter outcome).2.find? k = r.find? k := by
  obtain ⟨receivers, heq, -⟩ := r.deliver_eq waiter outcome
  rw [heq]
  rfl

/-- Cancelling an operation forgets its requests and no others. -/
theorem find?_cancel (r : Registry) (future : FutureId) (k : RequestKey) :
    (r.cancel future).2.find? k = if k.1 = future then none else r.find? k := by
  refine cancel_invariant (P := fun r' => r'.find? k = if k.1 = future then none else r.find? k) ?_
    fun r' waiter h => (r'.find?_close waiter k).trans h
  rw [find?, lookup_filter_eq r.inFlight (fun k => k.1 != future) k]
  by_cases h : k.1 = future <;> simp [h, find?]

/-- What is done about one request: this keeps its state, goes one step of its lifecycle further or is
forgotten, and all other requests are as before. -/
structure Steps (key : RequestKey) (r r' : Registry) : Prop where
  step : ∀ entry entry', r.find? key = some entry → r'.find? key = some entry' →
    entry'.state = entry.state ∨ entry.state.canTransition entry'.state = true
  others : ∀ k, k ≠ key → r'.find? k = r.find? k

section

variable {r r' : Registry} {key : RequestKey}

/-- Nothing need be done about a request. -/
theorem Steps.refl (key : RequestKey) (r : Registry) : Steps key r r := by
  refine ⟨fun entry entry' hentry hentry' => .inl ?_, fun _ _ => rfl⟩
  rw [Option.some.inj (hentry.symm.trans hentry')]

/-- Only the requests count. -/
theorem Steps.congr {r'' : Registry} (h : Steps key r r') (heq : ∀ k, r''.find? k = r'.find? k) :
    Steps key r r'' :=
  ⟨fun entry entry' hentry hentry' => h.step entry entry' hentry (heq key ▸ hentry'),
    fun k hk => (heq k).trans (h.others k hk)⟩

/-- Forgetting a request is a step of its own. -/
theorem steps_remove (key : RequestKey) (r : Registry) : Steps key r (r.remove key) := by
  refine ⟨fun entry entry' _ hentry' => ?_, fun k hk => by rw [find?_remove, if_neg hk]⟩
  rw [find?_remove, if_pos rfl] at hentry'
  cases hentry'

/-- A request is changed along an edge of its lifecycle. -/
theorem steps_modify {entry : MiniFuture} {f : MiniFuture → MiniFuture}
    (hfind : r.find? key = some entry)
    (hstep : entry.state.canTransition (f entry).state = true) :
    Steps key r (r.modify key f) := by
  refine ⟨fun old new hold hnew => .inr ?_, fun k hk => by rw [find?_modify, if_neg hk]⟩
  obtain rfl := Option.some.inj (hfind.symm.trans hold)
  rw [find?_modify, if_pos rfl, hfind] at hnew
  obtain rfl := Option.some.inj hnew
  exact hstep

/-- Registering a request leaves all others alone. -/
theorem steps_register (r : Registry) (key : RequestKey) : Steps key r (r.register key).2 := by
  unfold register
  cases hfind : r.find? key with
  | none =>
    refine ⟨fun entry _ hentry _ => ?_, fun k hk => ?_⟩
    · rw [hfind] at hentry
      cases hentry
    · simp only [find?, List.lookup_append, lookup_cons_eq, if_neg hk, List.lookup_nil,
        Option.or_none]
  | some entry =>
    dsimp only
    split
    · next hstep =>
      refine .congr (steps_modify (f := fun e => ⟨.created, some r.receivers.length,
        e.attempts + 1⟩) hfind hstep) fun k => ?_
      have hclosed := find?_modify (r.close entry.waiter) key
        (fun e => ⟨.created, some r.receivers.length, e.attempts + 1⟩) k
      rw [find?_close, ← find?_modify] at hclosed
      exact hclosed
    · exact .refl key r

/-- A request is taken to another state along an edge of its lifecycle, or stays as it is. -/
theorem steps_transition (r : Registry) (key : RequestKey) (target : RequestState) :
    Steps key r (r.transition key target).2 := by
  unfold transition
  split
  · exact .refl key r
  · next entry hfind =>
    split
    · next hstep => exact steps_modify (f := ({ · with state := target })) hfind hstep
    · exact .refl key r

/-- A response takes no request further but the one that it names. -/
theorem steps_onResponse (r : Registry) (response : EnlistResponse) :
    Steps (response.futureId, response.mini) r (r.onResponse response).2 := by
  rcases r.onResponse_cases response with heq | ⟨entry, r', hfind, hsent, -, hfound, heq⟩
  · rw [heq]
    exact .refl _ r
  · rw [heq]
    refine .congr ⟨fun old new hold hnew => .inr ?_, fun k hk => by rw [hfound, if_neg hk]⟩
      (r'.find?_deliver _ _)
    obtain rfl := Option.some.inj (hfind.symm.trans hold)
    rw [hfound, if_pos rfl] at hnew
    split at hnew
    · obtain rfl := Option.some.inj hnew
      rw [hsent]
      rfl
    · cases hnew

/-- A failure ends no request but its own. -/
theorem steps_onFailure (r : Registry) (key : RequestKey) (e : EnlistError) :
    Steps key r (r.onFailure key e).2 := by
  unfold onFailure
  split
  · exact .refl key r
  · exact (steps_remove key r).congr ((r.remove key).find?_deliver _ _)

/-- Completing a request leaves all others alone. -/
theorem steps_complete (r : Registry) (key : RequestKey) : Steps key r (r.complete key) := by
  unfold complete
  split
  · exact .refl key r
  · exact (steps_remove key r).congr ((r.remove key).find?_close _)

/-- An action that is about a request leaves all others alone. -/
theorem steps_perform (r : Registry) {action : RegistryAction} (hkey : action.key? = some key) :
    Steps key r (r.perform action) := by
  cases action with
  | register => cases hkey; exact r.steps_register key
  | transition _ target => cases hkey; exact r.steps_transition key target
  | respond response => cases hkey; exact r.steps_onResponse response
  | fail _ e => cases hkey; exact r.steps_onFailure key e
  | complete => cases hkey; exact r.steps_complete key
  | cancel | poll | drop => cases hkey

/-- An action that is about no request and cancels no operation leaves all requests alone. -/
theorem find?_perform (r : Registry) {action : RegistryAction} {k : RequestKey}
    (hkey : action.key? ≠ some k) (hcancel : action ≠ .cancel k.1) :
    (r.perform action).find? k = r.find? k := by
  cases hother : action.key? with
  | some key => exact (r.steps_perform hother).others k fun h => hkey (h ▸ hother)
  | none =>
    cases action with
    | cancel future =>
      rw [perform, find?_cancel, if_neg fun h => hcancel (congrArg _ h.symm)]
    | poll rx =>
      simp only [perform, poll]
      split <;> rfl
    | drop rx =>
      simp only [perform, drop]
      split <;> rfl
    | register | transition | respond | fail | complete => cases hother

/-- A request that stays in flight goes through its lifecycle step by step. -/
theorem step_perform (r : Registry) (action : RegistryAction) (key : RequestKey)
    (entry entry' : MiniFuture) (hentry : r.find? key = some entry)
    (hentry' : (r.perform action).find? key = some entry') :
    entry'.state = entry.state ∨ entry.state.canTransition entry'.state = true := by
  by_cases hkey : action.key? = some key
  · exact (r.steps_perform hkey).step entry entry' hentry hentry'
  · by_cases hcancel : action = .cancel key.1
    · rw [hcancel, perform, find?_cancel, if_pos rfl] at hentry'
      cases hentry'
    · rw [r.find?_perform hkey hcancel, hentry] at hentry'
      exact .inl (by rw [Option.some.inj hentry'])

end

/-! ## Whose receivers -/

/-- The keys for whose requests an action hands out receivers. -/
def grants (r : Registry) : RegistryAction → List RequestKey
  | .register key =>
    match (r.register key).1 with
    | .ok _ => [key]
    | .error _ => []
  | .transition _ _ | .respond _ | .fail _ _ | .complete _ | .cancel _ | .poll _ | .drop _ => []

/-- The keys for whose requests some actions hand out receivers, in the order of these. -/
def handedOut : Registry → List RegistryAction → List RequestKey
  | _, [] => []
  | r, action :: rest => r.grants action ++ (r.perform action).handedOut rest

/-- Requests wait at receivers that were handed out for their keys. -/
structure Belongs (r : Registry) (keys : List RequestKey) : Prop where
  length_eq : keys.length = r.receivers.length
  awaited : ∀ k rx, r.Awaited k rx → keys[rx]? = some k

/-- Closing a receiver hands out none. -/
theorem length_close (r : Registry) (waiter : Option Nat) :
    (r.close waiter).receivers.length = r.receivers.length := by
  obtain ⟨receivers, heq, hlength, -⟩ := r.close_eq waiter
  rw [heq, ← hlength]

/-- Telling a receiver an outcome hands out none. -/
theorem length_deliver (r : Registry) (waiter : Option Nat) (outcome : Delivery) :
    (r.deliver waiter outcome).2.receivers.length = r.receivers.length := by
  obtain ⟨receivers, heq, hlength, -⟩ := r.deliver_eq waiter outcome
  rw [heq, ← hlength]

/-- Cancelling an operation hands out no receivers. -/
theorem length_cancel (r : Registry) (future : FutureId) :
    (r.cancel future).2.receivers.length = r.receivers.length :=
  cancel_invariant (P := fun r' => r'.receivers.length = r.receivers.length) rfl
    fun r' waiter h => (r'.length_close waiter).trans h

/-- An action hands out as many receivers as it grants keys. -/
theorem length_perform (r : Registry) (action : RegistryAction) :
    (r.perform action).receivers.length = r.receivers.length + (r.grants action).length := by
  cases action with
  | register key =>
    rcases r.register_cases key with ⟨err, heq, -⟩ | ⟨r', heq, hlength, -⟩ <;>
      simp [perform, grants, *]
  | transition key target =>
    simp only [perform, transition, grants]
    split
    · rfl
    · split <;> rfl
  | respond response =>
    rcases r.onResponse_cases response with heq | ⟨entry, r', -, -, hreceivers, -, heq⟩
    · rw [perform, heq]
      rfl
    · rw [perform, heq, length_deliver, hreceivers]
      rfl
  | fail key e =>
    simp only [perform, onFailure, grants]
    split
    · rfl
    · exact (r.remove key).length_deliver _ _
  | complete key =>
    simp only [perform, complete, grants]
    split
    · rfl
    · exact (r.remove key).length_close _
  | cancel future => exact r.length_cancel future
  | poll rx =>
    simp only [perform, poll, grants]
    split
    · exact List.length_set
    · rfl
  | drop rx =>
    simp only [perform, drop, grants]
    split
    · rfl
    · exact List.length_set

/-- Every action hands out receivers for the keys that it grants. -/
theorem Belongs.perform {r : Registry} {keys : List RequestKey} (h : r.Belongs keys)
    (action : RegistryAction) : (r.perform action).Belongs (keys ++ r.grants action) := by
  have hlength := r.length_perform action
  refine ⟨by rw [List.length_append, hlength, h.length_eq], fun k rx hrx => ?_⟩
  obtain ⟨_, _, htells, -⟩ := r.tells_perform action
  rcases htells.awaited k rx hrx with hold | ⟨hle, hlt⟩
  · have hkey := h.awaited k rx hold
    rwa [List.getElem?_append_left (List.getElem?_eq_some_iff.mp hkey).1]
  · -- only a registration hands out a receiver, and one for the key that it registers
    have hgrants : (r.grants action).length ≠ 0 := by omega
    cases action with
    | register key =>
      rcases r.register_cases key with ⟨err, heq, -⟩ | ⟨r', heq, -, -, -, hawaited⟩
      · simp [grants, heq] at hgrants
      · rw [Registry.perform, heq] at hrx
        rcases hawaited k rx hrx with hold | ⟨rfl, rfl⟩
        · have hkey := h.awaited k rx hold
          rwa [List.getElem?_append_left (List.getElem?_eq_some_iff.mp hkey).1]
        · simp [grants, heq, h.length_eq]
    | transition | respond | fail | complete | cancel | poll | drop => exact absurd rfl hgrants

/-- The receivers of a registry belong to the keys for which they were handed out. -/
theorem belongs_foldl_perform (actions : List RegistryAction) :
    (actions.foldl perform {}).Belongs (handedOut {} actions) := by
  have hall : ∀ (r : Registry) (keys : List RequestKey), r.Belongs keys →
      (actions.foldl perform r).Belongs (keys ++ r.handedOut actions) := by
    induction actions with
    | nil => exact fun r keys h => by rwa [handedOut, List.append_nil]
    | cons action rest ih =>
      intro r keys h
      rw [handedOut, ← List.append_assoc]
      exact ih _ _ (h.perform action)
  exact hall {} [] ⟨rfl, fun k rx ⟨entry, hfind, _⟩ => by cases hfind⟩

/-! ## Correlation -/

/-- Delivering an outcome succeeds when the receiver waits, which then has it. -/
theorem deliver_true_iff (r : Registry) (waiter : Option Nat) (outcome : Delivery) :
    (r.deliver waiter outcome).1 = true ↔ ∃ rx, waiter = some rx ∧ r.receiver rx = .waiting := by
  unfold deliver
  split
  · simp
  · next rx =>
    split
    · next hwaiting => simp [hwaiting]
    · next hwaiting => simpa using hwaiting

/-- A receiver that waits is told the outcome that is sent to it. -/
theorem receiver_deliver {r : Registry} {rx : Nat} (hwaiting : r.receiver rx = .waiting)
    (outcome : Delivery) :
    (r.deliver (some rx) outcome).2.receiver rx = .delivered outcome := by
  have hlt : rx < r.receivers.length :=
    lt_of_receiver fun h => by rw [hwaiting] at h; cases h
  simp only [deliver, hwaiting, receiver_set, hlt, and_self, if_true]

/-- A response that is accepted is given to the receiver of the request it answers. -/
theorem gives_onResponse {r : Registry} {response : EnlistResponse} {rx : Nat}
    (h : r.Gives (.respond response) rx (.ok response)) :
    ∃ entry, r.find? (response.futureId, response.mini) = some entry ∧ entry.state = .sent ∧
      entry.waiter = some rx := by
  obtain ⟨hnew, hdelivered⟩ := h
  rw [perform] at hdelivered
  rcases r.onResponse_cases response with heq | ⟨entry, r', hfind, hsent, hreceivers, -, heq⟩
  · rw [heq] at hdelivered
    exact absurd hdelivered hnew
  · rw [heq] at hdelivered
    have hsame : r'.receiver rx = r.receiver rx := by rw [receiver, receiver, hreceivers]
    obtain ⟨-, -, -, htold⟩ := r'.deliver_eq entry.waiter (.ok response)
    rcases htold rx _ hdelivered with hold | ⟨hwaiter, -⟩
    · exact absurd (hsame ▸ hold) hnew
    · exact ⟨entry, hfind, hsent, hwaiter⟩

/-- A receiver is given a response only by handing in this response for the request that waits at
the receiver and has been sent. -/
theorem Gives.response {r : Registry} {action : RegistryAction} {rx : Nat}
    {response : EnlistResponse} (h : r.Gives action rx (.ok response)) :
    action = .respond response ∧
      ∃ entry, r.find? (response.futureId, response.mini) = some entry ∧ entry.state = .sent ∧
        entry.waiter = some rx := by
  have hlt : rx < r.receivers.length :=
    lt_of_receiver fun hdropped => by rw [h.waiting] at hdropped; cases hdropped
  -- an action that tells no receiver a response gives none
  have hsilent : ∀ {key : RequestKey} {told : Delivery → Prop}, ¬told (.ok response) →
      Tells key told r (r.perform action) → False :=
    fun hnot htells => (htells.delivered rx _ hlt h.2).elim h.1 fun hnew => hnot hnew.2
  have hmute : Tells (⟨0⟩, 0) (fun _ => False) r (r.perform action) → False := hsilent id
  cases action with
  | respond response' =>
    obtain rfl : response = response' :=
      ((r.tells_onResponse response').delivered rx _ hlt h.2).elim (fun hold => absurd hold h.1)
        fun hnew => Except.ok.inj hnew.2
    exact ⟨rfl, gives_onResponse h⟩
  | fail key e => exact (hsilent (fun h => by cases h) (r.tells_onFailure key e)).elim
  | register key => exact (hmute (r.tells_register key)).elim
  | transition key target => exact (hmute (r.tells_transition key target)).elim
  | complete key => exact (hmute (r.tells_complete key)).elim
  | cancel future => exact (hmute (r.tells_cancel future)).elim
  | poll rx' => exact (hmute (r.tells_poll rx')).elim
  | drop rx' => exact (hmute (r.tells_drop rx')).elim

/-- Delivering a response succeeds if and only if a receiver is given it. -/
theorem onResponse_true_iff (r : Registry) (response : EnlistResponse) :
    (r.onResponse response).1 = true ↔ ∃ rx, r.Gives (.respond response) rx (.ok response) := by
  constructor
  · intro htrue
    rcases r.onResponse_cases response with heq | ⟨entry, r', -, -, hreceivers, -, heq⟩
    · rw [heq] at htrue
      cases htrue
    · rw [heq] at htrue
      obtain ⟨rx, hwaiter, hwaiting⟩ := (r'.deliver_true_iff _ _).mp htrue
      refine ⟨rx, ?_, ?_⟩
      · rw [← show r'.receiver rx = r.receiver rx by rw [receiver, receiver, hreceivers], hwaiting]
        exact Receiver.noConfusion
      · rw [perform, heq, hwaiter]
        exact receiver_deliver hwaiting _
  · rintro ⟨rx, h⟩
    have hwaiting := h.waiting
    rcases r.onResponse_cases response with heq | ⟨entry, r', hfind, -, hreceivers, -, heq⟩
    · have hdelivered := h.2
      rw [perform, heq] at hdelivered
      exact absurd hdelivered h.1
    · obtain ⟨entry', hfind', -, hwaiter⟩ := gives_onResponse h
      obtain rfl := Option.some.inj (hfind.symm.trans hfind')
      rw [heq, deliver_true_iff]
      exact ⟨rx, hwaiter, by rw [receiver, hreceivers]; exact hwaiting⟩

/-- Cancelling an operation gives the number of its requests. -/
theorem cancel_pendingCount (r : Registry) (future : FutureId) :
    (r.cancel future).1 + (r.cancel future).2.pendingCount = r.pendingCount := by
  have hleft : (r.cancel future).2.inFlight =
      r.inFlight.filter fun entry => entry.1.1 != future := by
    refine cancel_invariant (P := fun r' => r'.inFlight = _) rfl fun r' waiter h => ?_
    obtain ⟨receivers, heq, -⟩ := r'.close_eq waiter
    rw [heq, ← h]
  rw [pendingCount, pendingCount, hleft]
  exact (r.inFlight.length_eq_length_filter_add fun entry => entry.1.1 == future).symm

/-- Correlation of responses. Let a registry be used in any way from its start. An action leaves the
state of a request that stays in flight or takes it one step of its lifecycle further. A receiver
is given a response only when this is delivered, while the receiver waits for the request in the
response, the request has been sent, and the receiver was handed out for it; what is given is given
to a receiver that waits, and nothing is given to it later. Delivering a response succeeds if and
only if a receiver is given it. Other than cancelling an operation, which forgets its requests and
gives their number, no action changes a request that it is not about. -/
theorem responses_correlated {actions : List RegistryAction} {r : Registry}
    (hr : actions.foldl perform {} = r) :
    (∀ (action : RegistryAction) (key : RequestKey) (entry entry' : MiniFuture),
        r.find? key = some entry → (r.perform action).find? key = some entry' →
          entry'.state = entry.state ∨ entry.state.canTransition entry'.state = true) ∧
      (∀ (action : RegistryAction) (rx : Nat) (outcome : Delivery), r.Gives action rx outcome →
        r.receiver rx = .waiting ∧
        (∀ response, outcome = .ok response → action = .respond response ∧
          (handedOut {} actions)[rx]? = some (response.futureId, response.mini) ∧
          ∃ entry, r.find? (response.futureId, response.mini) = some entry ∧
            entry.state = .sent ∧ entry.waiter = some rx) ∧
        ∀ (later : List RegistryAction) (action' : RegistryAction) (outcome' : Delivery),
          ¬(later.foldl perform (r.perform action)).Gives action' rx outcome') ∧
      (∀ response : EnlistResponse, (r.onResponse response).1 = true ↔
        ∃ rx, r.Gives (.respond response) rx (.ok response)) ∧
      (∀ (action : RegistryAction) (key : RequestKey), action.key? ≠ some key →
        action ≠ .cancel key.1 → (r.perform action).find? key = r.find? key) ∧
      ∀ future : FutureId, (∀ key, (r.cancel future).2.find? key =
          if key.1 = future then none else r.find? key) ∧
        (r.cancel future).1 + (r.cancel future).2.pendingCount = r.pendingCount := by
  refine ⟨r.step_perform, fun action rx outcome h => ⟨h.waiting, fun response hok => ?_, h.once⟩,
    r.onResponse_true_iff, fun action key => r.find?_perform,
    fun future => ⟨r.find?_cancel future, r.cancel_pendingCount future⟩⟩
  subst hok hr
  obtain ⟨haction, entry, hfind, hsent, hwaiter⟩ := h.response
  exact ⟨haction, (belongs_foldl_perform actions).awaited _ rx ⟨entry, hfind, hwaiter⟩, entry,
    hfind, hsent, hwaiter⟩

/-- A request is mapped again, and the answer to its second sending reaches the second receiver,
which is given nothing else. -/
theorem answer_reaches_second_receiver :
    let key : RequestKey := (⟨5⟩, 0)
    let sent := [.register key, .transition key .marshalled, .transition key .sent]
    let actions := sent ++ .respond { futureId := ⟨5⟩, remap := some ⟨2, 0⟩ } :: sent
    let answer : EnlistResponse := { futureId := ⟨5⟩ }
    ∃ r : Registry, actions.foldl perform {} = r ∧ handedOut {} actions = [key, key] ∧
      (r.onResponse answer).1 = true ∧ r.Gives (.respond answer) 1 (.ok answer) ∧
      ∀ (later : List RegistryAction) (action : RegistryAction) (outcome : Delivery),
        ¬(later.foldl perform (r.perform (.respond answer))).Gives action 1 outcome := by
  intro key sent actions answer
  have hr : actions.foldl perform {} = actions.foldl perform {} := rfl
  obtain ⟨-, hgiven, htrue, -⟩ := responses_correlated hr
  have haccepted : ((actions.foldl perform {}).onResponse answer).1 = true := by decide +kernel
  have hwaits : ((actions.foldl perform {}).find? key).bind MiniFuture.waiter = some 1 := by
    decide +kernel
  obtain ⟨rx, h⟩ := (htrue answer).mp haccepted
  obtain ⟨-, hown, honce⟩ := hgiven _ rx _ h
  obtain ⟨-, -, entry, hfind, -, hwaiter⟩ := hown answer rfl
  rw [hfind, Option.bind_some, hwaiter] at hwaits
  obtain rfl := Option.some.inj hwaits
  exact ⟨_, rfl, by decide +kernel, haccepted, h, honce⟩

end Registry

end Enlistment
