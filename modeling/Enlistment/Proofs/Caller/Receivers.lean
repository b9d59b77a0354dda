import Enlistment.Registry

/-!
# What receivers are told

Whatever is done to a registry tells the receiver of one request at most, and lets nobody new wait
at a receiver that was handed out before. A receiver that is handed out is therefore told nothing
but what is said to its own request.
-/

namespace Enlistment

/-- Something that is done to a registry. -/
inductive RegistryAction where
  | register (key : RequestKey)
  | transition (key : RequestKey) (target : RequestState)
  | respond (response : EnlistResponse)
  | fail (key : RequestKey) (e : EnlistError)
  | complete (key : RequestKey)
  | cancel (future : FutureId)
  | poll (rx : Nat)
  | drop (rx : Nat)

/-- The key of the request whose receiver an action tells an outcome. -/
def RegistryAction.told? : RegistryAction → Option RequestKey
  | respond response => some (response.futureId, response.mini)
  | fail key _ => some key
  | _ => none

/-- An error that a caller finds without looking into the answer of a node, and for which nothing is
mapped again. -/
def EnlistError.IsOwn : EnlistError → Prop
  | unmarshal _ | topologyMismatch .. => False
  | remote text => text = "response does not match the request"
  | _ => True

/-- An error for a request that was sent, but that the caller has seen no answer to. -/
def EnlistError.IsUnanswered : EnlistError → Prop
  | timeout .. | cancelled .. | transport _ => True
  | remote text => text = "response does not match the request"
  | _ => False

/-- Nothing is mapped again for an error that a caller finds by itself. -/
theorem EnlistError.IsOwn.isRetriable {err : EnlistError} (h : err.IsOwn) :
    err.isRetriable = false := by
  cases err with
  | topologyMismatch requested current => exact h.elim
  | _ => rfl

/-- That there is no answer is found by the caller itself. -/
theorem EnlistError.IsUnanswered.isOwn {err : EnlistError} (h : err.IsUnanswered) : err.IsOwn := by
  cases err with
  | timeout _ _ _ | cancelled _ _ | transport _ => trivial
  | remote text => exact h
  | _ => exact h.elim

namespace Registry

/-- The registry after an action. -/
def perform (r : Registry) : RegistryAction → Registry
  | .register key => (r.register key).2
  | .transition key target => (r.transition key target).2
  | .respond response => (r.onResponse response).2
  | .fail key e => (r.onFailure key e).2
  | .complete key => r.complete key
  | .cancel future => (r.cancel future).2
  | .poll rx => (r.poll rx).2
  | .drop rx => (r.drop rx).2

/-- The request of a key waits at a receiver. -/
def Awaited (r : Registry) (key : RequestKey) (rx : Nat) : Prop :=
  ∃ entry, r.find? key = some entry ∧ entry.waiter = some rx

/-- Requests wait at receivers that were handed out. -/
def Sound (r : Registry) : Prop := ∀ key rx, r.Awaited key rx → rx < r.receivers.length

/-- A registry as it may become when nobody is told anything but the receiver of one request, and
this one an outcome out of `told`. -/
structure Tells (key : RequestKey) (told : Delivery → Prop) (r r' : Registry) : Prop where
  length_le : r.receivers.length ≤ r'.receivers.length
  awaited : ∀ k rx, r'.Awaited k rx →
    r.Awaited k rx ∨ (r.receivers.length ≤ rx ∧ rx < r'.receivers.length)
  delivered : ∀ rx outcome, rx < r.receivers.length → r'.receiver rx = .delivered outcome →
    r.receiver rx = .delivered outcome ∨ (r.Awaited key rx ∧ told outcome)

/-- A receiver that belongs to the request of a key alone and is told what `told` allows. -/
structure Reserves (key : RequestKey) (rx : Nat) (told : Delivery → Prop) (r : Registry) :
    Prop where
  lt : rx < r.receivers.length
  only : ∀ k, r.Awaited k rx → k = key
  delivered : ∀ outcome, r.receiver rx = .delivered outcome → told outcome

section

variable {key : RequestKey} {told : Delivery → Prop} {r r' r'' : Registry}

/-- A registry that stays as it is tells nobody anything. -/
theorem Tells.refl (key : RequestKey) (told : Delivery → Prop) (r : Registry) :
    Tells key told r r :=
  ⟨Nat.le_refl _, fun _ _ h => .inl h, fun _ _ _ h => .inl h⟩

/-- Telling one receiver in two steps is telling it. -/
theorem Tells.trans (h : Tells key told r r') (h' : Tells key told r' r'') :
    Tells key told r r'' := by
  have hlength := h.length_le
  have hlength' := h'.length_le
  refine ⟨Nat.le_trans hlength hlength', fun k rx hrx => ?_, fun rx outcome hlt hrx => ?_⟩
  · rcases h'.awaited k rx hrx with hrx | hnew
    · rcases h.awaited k rx hrx with hrx | hnew
      · exact .inl hrx
      · exact .inr ⟨hnew.1, by omega⟩
    · exact .inr ⟨by omega, hnew.2⟩
  · rcases h'.delivered rx outcome (by omega) hrx with hrx | ⟨hrx, htold⟩
    · exact h.delivered rx outcome hlt hrx
    · rcases h.awaited key rx hrx with hrx | hnew
      · exact .inr ⟨hrx, htold⟩
      · omega

/-- A receiver may be told more than it is told. -/
theorem Tells.mono {told' : Delivery → Prop} (h : Tells key told r r')
    (himp : ∀ outcome, told outcome → told' outcome) : Tells key told' r r' :=
  ⟨h.length_le, h.awaited, fun rx outcome hlt hrx =>
    (h.delivered rx outcome hlt hrx).imp id fun hnew => ⟨hnew.1, himp outcome hnew.2⟩⟩

/-- Requests still wait at receivers that were handed out. -/
theorem Tells.sound (h : Tells key told r r') (hr : r.Sound) : r'.Sound := by
  intro k rx hrx
  rcases h.awaited k rx hrx with hrx | hnew
  · exact Nat.lt_of_lt_of_le (hr k rx hrx) h.length_le
  · exact hnew.2

/-- A receiver still belongs to its request after anything that tells it no more than it may be
told. -/
theorem Reserves.tells {k : RequestKey} {rx : Nat} {allowed : Delivery → Prop}
    (hr : r.Reserves k rx allowed) (h : Tells key told r r')
    (htold : key = k → ∀ outcome, told outcome → allowed outcome) : r'.Reserves k rx allowed := by
  have hlt := hr.lt
  refine ⟨Nat.lt_of_lt_of_le hlt h.length_le, fun k' hk' => ?_, fun outcome hrx => ?_⟩
  · rcases h.awaited k' rx hk' with hk' | hnew
    · exact hr.only k' hk'
    · omega
  · rcases h.delivered rx outcome hlt hrx with hrx | ⟨hrx, hnew⟩
    · exact hr.delivered outcome hrx
    · exact htold (hr.only key hrx) outcome hnew

/-- A receiver may be allowed to be told more. -/
theorem Reserves.mono {rx : Nat} {allowed : Delivery → Prop} (hr : r.Reserves key rx told)
    (himp : ∀ outcome, told outcome → allowed outcome) : r.Reserves key rx allowed :=
  ⟨hr.lt, hr.only, fun outcome hrx => himp outcome (hr.delivered outcome hrx)⟩

end

/-! ## Requests -/

section

variable {A : Type}

/-- The first entry of a key is the one that is found. -/
theorem lookup_cons_eq (entry : RequestKey × A) (rest : List (RequestKey × A)) (k : RequestKey) :
    (entry :: rest).lookup k = if k = entry.1 then some entry.2 else rest.lookup k := by
  rw [List.lookup_cons]
  by_cases h : k = entry.1
  · rw [if_pos h, beq_iff_eq.mpr h]
  · rw [if_neg h, beq_false_of_ne h]

/-- Changing the entries of a key changes what is found for this key. -/
theorem lookup_map_entry (entries : List (RequestKey × A)) (key k : RequestKey) (f : A → A) :
    (entries.map fun entry => if entry.1 = key then (entry.1, f entry.2) else entry).lookup k =
      if k = key then (entries.lookup k).map f else entries.lookup k := by
  induction entries with
  | nil => simp
  | cons entry rest ih =>
    rw [List.map_cons, lookup_cons_eq, lookup_cons_eq, ih]
    grind

/-- Among the entries of some keys the others are not found. -/
theorem lookup_filter_eq (entries : List (RequestKey × A)) (p : RequestKey → Bool)
    (k : RequestKey) : (entries.filter fun entry => p entry.1).lookup k =
      if p k = true then entries.lookup k else none := by
  induction entries with
  | nil => simp
  | cons entry rest ih =>
    rw [List.filter_cons, lookup_cons_eq]
    split
    · rw [lookup_cons_eq, ih]
      grind
    · grind

/-- What is found among the entries of some keys is found among all. -/
theorem lookup_filter_key {entries : List (RequestKey × A)} {p : RequestKey → Bool}
    {k : RequestKey} {a : A} (h : (entries.filter fun entry => p entry.1).lookup k = some a) :
    entries.lookup k = some a ∧ p k = true := by
  rw [lookup_filter_eq] at h
  split at h
  · next hk => exact ⟨h, hk⟩
  · cases h

end

variable {r : Registry} {key k : RequestKey} {rx : Nat} {told : Delivery → Prop}

/-- Changing the request of a key changes no other. -/
theorem find?_modify (r : Registry) (key : RequestKey) (f : MiniFuture → MiniFuture)
    (k : RequestKey) :
    (r.modify key f).find? k = if k = key then (r.find? k).map f else r.find? k :=
  lookup_map_entry r.inFlight key k f

/-- Forgetting the request of a key forgets no other. -/
theorem find?_remove (r : Registry) (key k : RequestKey) :
    (r.remove key).find? k = if k = key then none else r.find? k := by
  rw [find?, remove, lookup_filter_eq r.inFlight (fun k => k != key) k]
  by_cases h : k = key <;> simp [h, find?]

/-- A request that waits although that of a key is forgotten is another one and waited before. -/
theorem Awaited.of_remove (h : (r.remove key).Awaited k rx) : r.Awaited k rx ∧ k ≠ key := by
  obtain ⟨entry, hfind, hwaiter⟩ := h
  obtain ⟨hfound, hk⟩ := lookup_filter_key (p := fun k => k != key) hfind
  exact ⟨⟨entry, hfound, hwaiter⟩, by simpa using hk⟩

/-- The entry of a key, changed so that it waits nowhere new. -/
theorem Awaited.of_modify {f : MiniFuture → MiniFuture}
    (hf : ∀ entry rx, (f entry).waiter = some rx → entry.waiter = some rx)
    (h : (r.modify key f).Awaited k rx) : r.Awaited k rx := by
  obtain ⟨entry, hfind, hwaiter⟩ := h
  rw [find?_modify] at hfind
  split at hfind
  · obtain ⟨old, hold, rfl⟩ := Option.map_eq_some_iff.mp hfind
    exact ⟨old, hold, hf old rx hwaiter⟩
  · exact ⟨entry, hfind, hwaiter⟩

/-! ## Receivers -/

/-- Writing to a receiver that was handed out changes no other. -/
theorem receiver_set (r : Registry) (rx : Nat) (new : Receiver) (rx' : Nat) :
    ({ r with receivers := r.receivers.set rx new } : Registry).receiver rx' =
      if rx = rx' ∧ rx < r.receivers.length then new else r.receiver rx' := by
  simp only [receiver, List.getD_eq_getElem?_getD, List.getElem?_set]
  split
  · next h =>
    subst h
    split
    · next hlt => simp [hlt]
    · next hlt => simp [hlt]
  · next h => simp [h]

/-- Closing a receiver changes nothing but this receiver, which is told nothing. -/
theorem close_eq (r : Registry) (waiter : Option Nat) :
    ∃ receivers, r.close waiter = { r with receivers := receivers } ∧
      receivers.length = r.receivers.length ∧
      ∀ rx outcome, (r.close waiter).receiver rx = .delivered outcome →
        r.receiver rx = .delivered outcome := by
  unfold close
  split
  · exact ⟨_, rfl, rfl, fun _ _ h => h⟩
  · split
    · refine ⟨_, rfl, List.length_set, fun rx outcome h => ?_⟩
      rw [receiver_set] at h
      split at h
      · cases h
      · exact h
    · exact ⟨_, rfl, rfl, fun _ _ h => h⟩

/-- An outcome that is sent reaches the receiver it is sent to, and no other. -/
theorem deliver_eq (r : Registry) (waiter : Option Nat) (outcome : Delivery) :
    ∃ receivers, (r.deliver waiter outcome).2 = { r with receivers := receivers } ∧
      receivers.length = r.receivers.length ∧
      ∀ rx outcome', (r.deliver waiter outcome).2.receiver rx = .delivered outcome' →
        r.receiver rx = .delivered outcome' ∨ (waiter = some rx ∧ outcome' = outcome) := by
  unfold deliver
  split
  · exact ⟨_, rfl, rfl, fun _ _ h => .inl h⟩
  · split
    · refine ⟨_, rfl, List.length_set, fun rx outcome' h => ?_⟩
      rw [receiver_set] at h
      split at h
      · next hrx => exact .inr ⟨congrArg some hrx.1, (Receiver.delivered.inj h).symm⟩
      · exact .inl h
    · exact ⟨_, rfl, rfl, fun _ _ h => .inl h⟩

/-! ## What is done -/

/-- Only receivers change, and none of them is told anything. -/
theorem tells_receivers {receivers : List Receiver}
    (hlength : receivers.length = r.receivers.length)
    (h : ∀ rx outcome, ({ r with receivers := receivers } : Registry).receiver rx =
      .delivered outcome → r.receiver rx = .delivered outcome) :
    Tells key told r { r with receivers := receivers } :=
  ⟨Nat.le_of_eq hlength.symm, fun _ _ h => .inl h, fun rx outcome _ hrx => .inl (h rx outcome hrx)⟩

/-- A receiver that is closed is told nothing. -/
theorem tells_close (r : Registry) (waiter : Option Nat) : Tells key told r (r.close waiter) := by
  obtain ⟨receivers, heq, hlength, hclosed⟩ := r.close_eq waiter
  rw [heq] at hclosed ⊢
  exact tells_receivers hlength hclosed

/-- Forgetting a request tells nobody anything. -/
theorem tells_remove (r : Registry) (k : RequestKey) : Tells key told r (r.remove k) :=
  ⟨Nat.le_refl _, fun _ _ h => .inl h.of_remove.1, fun _ _ _ h => .inl h⟩

/-- Changing a request so that it waits nowhere new tells nobody anything. -/
theorem tells_modify {f : MiniFuture → MiniFuture}
    (hf : ∀ entry rx, (f entry).waiter = some rx → entry.waiter = some rx) :
    Tells key told r (r.modify k f) :=
  ⟨Nat.le_refl _, fun _ _ h => .inl (h.of_modify hf), fun _ _ _ h => .inl h⟩

/-- A registration fails and changes nothing, or it hands out a new receiver for which nobody but
the request of its key waits. -/
theorem register_cases (r : Registry) (key : RequestKey) :
    (∃ err, r.register key = (.error err, r) ∧ err.IsOwn) ∨
      ∃ r' : Registry, r.register key = (.ok r.receivers.length, r') ∧
        r'.receivers.length = r.receivers.length + 1 ∧
        r'.receiver r.receivers.length = .waiting ∧
        (∀ rx outcome, rx < r.receivers.length → r'.receiver rx = .delivered outcome →
          r.receiver rx = .delivered outcome) ∧
        ∀ k rx, r'.Awaited k rx → r.Awaited k rx ∨ (k = key ∧ rx = r.receivers.length) := by
  have hnew : ∀ (inFlight : List (RequestKey × MiniFuture)) (receivers : List Receiver),
      ({ inFlight, receivers := receivers ++ [.waiting] } : Registry).receiver receivers.length =
        .waiting := by
    intro inFlight receivers
    simp [receiver]
  have hold : ∀ (inFlight : List (RequestKey × MiniFuture)) (receivers : List Receiver) (rx : Nat),
      rx < receivers.length →
      ({ inFlight, receivers := receivers ++ [.waiting] } : Registry).receiver rx =
        receivers.getD rx .dropped := by
    intro inFlight receivers rx hlt
    simp [receiver, List.getElem?_append_left hlt]
  unfold register
  cases hfind : r.find? key with
  | none =>
    refine .inr ⟨_, rfl, by simp, hnew _ _, fun rx outcome hlt h => ?_, ?_⟩
    · rwa [hold _ _ rx hlt] at h
    · rintro k rx ⟨entry, hfound, hwaiter⟩
      simp only [find?, List.lookup_append, Option.or_eq_some_iff] at hfound
      rcases hfound with hfound | ⟨-, hfound⟩
      · exact .inl ⟨entry, hfound, hwaiter⟩
      · rw [lookup_cons_eq] at hfound
        split at hfound
        · next hk =>
          obtain rfl := Option.some.inj hfound
          exact .inr ⟨hk, (Option.some.inj hwaiter).symm⟩
        · cases hfound
  | some entry =>
    dsimp only
    split
    · obtain ⟨receivers, heq, hlength, hclosed⟩ := r.close_eq entry.waiter
      rw [heq] at hclosed ⊢
      refine .inr ⟨_, rfl, by simp [hlength], hlength ▸ hnew _ receivers,
        fun rx outcome hlt h => ?_, ?_⟩
      · refine hclosed rx outcome ?_
        rwa [hold _ receivers rx (hlength ▸ hlt)] at h
      · rintro k rx ⟨found, hfound, hwaiter⟩
        have hmodified := (find?_modify r key
          (fun e => ⟨.created, some r.receivers.length, e.attempts + 1⟩) k).symm.trans hfound
        split at hmodified
        · next hk =>
          obtain ⟨old, -, rfl⟩ := Option.map_eq_some_iff.mp hmodified
          exact .inr ⟨hk, (Option.some.inj hwaiter).symm⟩
        · exact .inl ⟨found, hmodified, hwaiter⟩
    · exact .inl ⟨_, rfl, trivial⟩

/-- Registering a request tells nobody anything. -/
theorem tells_register (r : Registry) (k : RequestKey) :
    Tells key told r (r.register k).2 := by
  rcases r.register_cases k with ⟨err, heq, -⟩ | ⟨r', heq, hlength, -, hold, hawaited⟩ <;> rw [heq]
  · exact .refl ..
  · dsimp only
    refine ⟨by omega, fun k' rx hrx => ?_, fun rx outcome hlt hrx => .inl (hold rx outcome hlt hrx)⟩
    exact (hawaited k' rx hrx).imp id fun hnew => by omega

/-- A new receiver belongs to the request it was handed out for. -/
theorem reserves_register {r' : Registry} (hsound : r.Sound)
    (h : r.register key = (.ok rx, r')) : r'.Reserves key rx fun _ => False := by
  rcases r.register_cases key with ⟨err, heq, -⟩ | ⟨r'', heq, hlength, hnew, -, hawaited⟩
  · rw [heq] at h
    cases h
  · obtain ⟨hrx, rfl⟩ := Prod.mk.inj (heq.symm.trans h)
    obtain rfl := Except.ok.inj hrx
    refine ⟨by omega, fun k hk => ?_, fun outcome hdelivered => ?_⟩
    · rcases hawaited k _ hk with hk | hk
      · exact absurd (hsound k _ hk) (Nat.lt_irrefl _)
      · exact hk.1
    · rw [hnew] at hdelivered
      cases hdelivered

/-- Taking a request to another state tells nobody anything. -/
theorem tells_transition (r : Registry) (k : RequestKey) (target : RequestState) :
    Tells key told r (r.transition k target).2 := by
  unfold transition
  split
  · exact .refl ..
  · split
    · exact tells_modify (f := fun e => { e with state := target }) fun _ _ h => h
    · exact .refl ..

/-- Sending an outcome to the waiter of a request that is not waiting any more. -/
theorem tells_deliver {r' : Registry} {waiter : Option Nat} {outcome : Delivery}
    (h : Tells key told r r') (hwaiter : ∀ rx, waiter = some rx → r.Awaited key rx)
    (htold : told outcome) : Tells key told r (r'.deliver waiter outcome).2 := by
  obtain ⟨receivers, heq, hlength, hdelivered⟩ := r'.deliver_eq waiter outcome
  rw [heq] at hdelivered ⊢
  refine ⟨?_, fun k rx hrx => ?_, fun rx outcome' hlt hrx => ?_⟩
  · rw [hlength]
    exact h.length_le
  · rw [hlength]
    exact h.awaited k rx hrx
  · rcases hdelivered rx outcome' hrx with hrx | ⟨hrx, rfl⟩
    · exact h.delivered rx outcome' hlt hrx
    · exact .inr ⟨hwaiter rx hrx, htold⟩

/-- A response is told to the receiver of the request that it names. -/
theorem tells_onResponse (r : Registry) (response : EnlistResponse) :
    Tells (response.futureId, response.mini) (fun outcome => outcome = .ok response) r
      (r.onResponse response).2 := by
  unfold onResponse
  dsimp only
  generalize (if response.remap.isSome = true then RequestState.retryTopology else .acked) = target
  split
  · exact .refl ..
  · next entry hfind =>
    split
    · refine tells_deliver ?_ (fun rx hrx => ⟨entry, hfind, hrx⟩) rfl
      have hmodify : Tells (response.futureId, response.mini)
          (fun outcome => outcome = .ok response) r
          (r.modify (response.futureId, response.mini) fun e =>
            { e with state := target, waiter := none }) :=
        tells_modify fun _ _ h => by cases h
      split
      · exact hmodify.trans (tells_remove _ _)
      · exact hmodify
    · exact .refl ..

/-- A failure is told to the receiver of its request. -/
theorem tells_onFailure (r : Registry) (key : RequestKey) (e : EnlistError) :
    Tells key (fun outcome => outcome = .error e) r (r.onFailure key e).2 := by
  unfold onFailure
  split
  · exact .refl ..
  · next entry hfind =>
    exact tells_deliver (tells_remove r key) (fun rx hrx => ⟨entry, hfind, hrx⟩) rfl

/-- Completing a request tells nobody anything. -/
theorem tells_complete (r : Registry) (k : RequestKey) : Tells key told r (r.complete k) := by
  unfold complete
  split
  · exact .refl ..
  · exact (tells_remove r k).trans (tells_close _ _)

/-- Cancelling an operation forgets its requests and closes receivers. -/
theorem cancel_invariant {P : Registry → Prop} {future : FutureId}
    (hforget : P { r with inFlight := r.inFlight.filter fun entry => entry.1.1 != future })
    (hclose : ∀ (r' : Registry) (waiter : Option Nat), P r' → P (r'.close waiter)) :
    P (r.cancel future).2 :=
  List.foldlRecOn _ _ hforget fun r' h entry _ => hclose r' entry.2.waiter h

/-- Cancelling an operation tells nobody anything. -/
theorem tells_cancel (r : Registry) (future : FutureId) :
    Tells key told r (r.cancel future).2 := by
  refine cancel_invariant ⟨Nat.le_refl _, ?_, fun _ _ _ h => .inl h⟩
    fun r' waiter h => h.trans (tells_close r' waiter)
  rintro k rx ⟨entry, hfind, hwaiter⟩
  exact .inl ⟨entry, (lookup_filter_key (p := fun k => k.1 != future) hfind).1, hwaiter⟩

/-- Asking a receiver for its outcome tells nobody anything. -/
theorem tells_poll (r : Registry) (rx : Nat) : Tells key told r (r.poll rx).2 := by
  unfold poll
  split
  · refine tells_receivers List.length_set fun rx' outcome h => ?_
    rw [receiver_set] at h
    split at h
    · cases h
    · exact h
  · exact .refl ..

/-- Giving up a receiver tells nobody anything. -/
theorem tells_drop (r : Registry) (rx : Nat) : Tells key told r (r.drop rx).2 := by
  unfold drop
  split
  · exact .refl ..
  · refine tells_receivers List.length_set fun rx' outcome h => ?_
    rw [receiver_set] at h
    split at h
    · cases h
    · exact h

/-- Whatever is done to a registry tells nobody anything but the receiver of one request. -/
theorem tells_perform (r : Registry) (action : RegistryAction) :
    ∃ key told, Tells key told r (r.perform action) ∧
      ((∀ outcome, ¬told outcome) ∨ action.told? = some key) := by
  have hsilent : ∀ {r' : Registry}, Tells (⟨0⟩, 0) (fun _ => False) r r' →
      ∃ key told, Tells key told r r' ∧ ((∀ outcome, ¬told outcome) ∨ action.told? = some key) :=
    fun h => ⟨_, _, h, .inl fun _ => id⟩
  cases action with
  | register key => exact hsilent (r.tells_register key)
  | transition key target => exact hsilent (r.tells_transition key target)
  | respond response => exact ⟨_, _, r.tells_onResponse response, .inr rfl⟩
  | fail key e => exact ⟨_, _, r.tells_onFailure key e, .inr rfl⟩
  | complete key => exact hsilent (r.tells_complete key)
  | cancel future => exact hsilent (r.tells_cancel future)
  | poll rx => exact hsilent (r.tells_poll rx)
  | drop rx => exact hsilent (r.tells_drop rx)

/-- In a registry that has been used in any way, requests wait at receivers that were handed
out. -/
theorem sound_foldl_perform (actions : List RegistryAction) :
    (actions.foldl perform {}).Sound := by
  have hall : ∀ r : Registry, r.Sound → (actions.foldl perform r).Sound := by
    induction actions with
    | nil => exact fun _ h => h
    | cons action rest ih =>
      intro r h
      obtain ⟨_, _, htells, -⟩ := r.tells_perform action
      exact ih _ (htells.sound h)
  refine hall {} fun key rx ⟨entry, hfind, _⟩ => ?_
  cases hfind

end Registry

end Enlistment
