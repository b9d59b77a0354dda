import Enlistment.Proofs.Caller.Correlation
import Enlistment.Proofs.Caller.Exchanges
import Enlistment.Proofs.Caller.Mapping

/-!
# Registries in use

Whatever has been done to a registry, no two of its requests have the same key, so a receiver is
changed only by what is done about the request that waits there. Cancelling an operation closes the
receivers of its requests and no others, and a request that is launched is in flight or forgotten.
-/

namespace Enlistment

namespace Registry

variable {r r' : Registry} {key k : RequestKey} {rx : Nat}

/-! ## Registries in use -/

/-- Whatever has been done to a registry in between. -/
def Leads (r r' : Registry) : Prop := ∃ actions : List RegistryAction, actions.foldl perform r = r'

/-- A registry that has been used in any way from its start. -/
def Used (r : Registry) : Prop := Leads {} r

/-- Nothing need be done in between. -/
theorem Leads.refl (r : Registry) : r.Leads r := ⟨[], rfl⟩

/-- What is done in between may be done in two parts. -/
theorem Leads.trans {r'' : Registry} (h : r.Leads r') (h' : r'.Leads r'') : r.Leads r'' := by
  obtain ⟨actions, rfl⟩ := h
  obtain ⟨later, rfl⟩ := h'
  exact ⟨actions ++ later, List.foldl_append⟩

/-- A single action may be all that is done. -/
theorem leads_perform (r : Registry) (action : RegistryAction) : r.Leads (r.perform action) :=
  ⟨[action], rfl⟩

/-- Requests of a registry in use wait at receivers that were handed out. -/
theorem Used.sound (h : r.Used) : r.Sound := by
  obtain ⟨actions, rfl⟩ := h
  exact sound_foldl_perform actions

/-- A receiver that has been handed out and waits has been waiting all the time. -/
theorem Leads.waiting (h : r.Leads r') (hlt : rx < r.receivers.length)
    (hwaiting : r'.receiver rx = .waiting) : r.receiver rx = .waiting := by
  obtain ⟨actions, rfl⟩ := h
  induction actions generalizing r with
  | nil => exact hwaiting
  | cons action rest ih =>
    obtain ⟨_, _, htells, -⟩ := r.tells_perform action
    have hnext := ih (Nat.lt_of_lt_of_le hlt htells.length_le) hwaiting
    rcases r.moves_perform action rx with hmoves | ⟨hle, -⟩
    · by_contra hne
      exact hmoves.ne_waiting hne hnext
    · exact absurd hlt (Nat.not_lt.mpr hle)

/-- The keys of the requests in flight. -/
def keys (r : Registry) : List RequestKey := r.inFlight.map Prod.fst

/-- Nothing is found for a key that no request has. -/
theorem find?_eq_none_iff : r.find? key = none ↔ key ∉ r.keys := by
  rw [find?, List.lookup_eq_none_iff, keys, List.mem_map]
  grind

/-- Closing a receiver keeps all requests in flight. -/
theorem keys_close (r : Registry) (waiter : Option Nat) : (r.close waiter).keys = r.keys := by
  obtain ⟨receivers, heq, -⟩ := r.close_eq waiter
  rw [heq]
  rfl

/-- Telling a receiver an outcome keeps all requests in flight. -/
theorem keys_deliver (r : Registry) (waiter : Option Nat) (outcome : Delivery) :
    (r.deliver waiter outcome).2.keys = r.keys := by
  obtain ⟨receivers, heq, -⟩ := r.deliver_eq waiter outcome
  rw [heq]
  rfl

/-- Changing a request keeps all keys. -/
theorem keys_modify (r : Registry) (key : RequestKey) (f : MiniFuture → MiniFuture) :
    (r.modify key f).keys = r.keys := by
  rw [keys, modify, List.map_map, keys]
  exact List.map_congr_left fun entry _ => by dsimp only [Function.comp]; split <;> rfl

/-- Forgetting a request adds no key. -/
theorem keys_remove_sublist (r : Registry) (key : RequestKey) :
    (r.remove key).keys.Sublist r.keys := List.filter_sublist.map Prod.fst

/-- No action gives two requests the same key. -/
theorem nodup_keys_perform (h : r.keys.Nodup) (action : RegistryAction) :
    (r.perform action).keys.Nodup := by
  have hremove : ∀ key, (r.remove key).keys.Nodup := fun key =>
    h.sublist (r.keys_remove_sublist key)
  cases action with
  | register key =>
    simp only [perform, register]
    split
    · next hfind =>
      have hnew := find?_eq_none_iff.mp hfind
      rw [keys, List.map_append]
      refine List.nodup_append.mpr ⟨h, List.pairwise_singleton _ _, fun k hk k' hk' heq => hnew ?_⟩
      rwa [heq, List.mem_singleton.mp hk'] at hk
    · split
      · next entry hfind hstep =>
        have hkeys := (r.close entry.waiter).keys_modify key
          fun e => ⟨.created, some r.receivers.length, e.attempts + 1⟩
        rw [keys_close] at hkeys
        rw [keys] at hkeys ⊢
        dsimp only
        rwa [hkeys]
      · exact h
  | transition key target =>
    simp only [perform, transition]
    split
    · exact h
    · split
      · rwa [keys_modify]
      · exact h
  | respond response =>
    simp only [perform, onResponse]
    generalize (if response.remap.isSome = true then RequestState.retryTopology else .acked) =
      target
    split
    · exact h
    · split
      · rw [keys_deliver]
        split
        · refine List.Nodup.sublist (keys_remove_sublist _ _) ?_
          rwa [keys_modify]
        · rwa [keys_modify]
      · exact h
  | fail key e =>
    simp only [perform, onFailure]
    split
    · exact h
    · rw [keys_deliver]
      exact hremove key
  | complete key =>
    simp only [perform, complete]
    split
    · exact h
    · rw [keys_close]
      exact hremove key
  | cancel future =>
    exact cancel_invariant (P := fun r' => r'.keys.Nodup)
      (h.sublist (List.filter_sublist.map Prod.fst))
      fun r' waiter h => (r'.keys_close waiter).symm ▸ h
  | poll rx =>
    simp only [perform, poll]
    split <;> exact h
  | drop rx =>
    simp only [perform, drop]
    split <;> exact h

/-- No two requests of a registry in use have the same key. -/
theorem Used.nodup_keys (h : r.Used) : r.keys.Nodup := by
  obtain ⟨actions, rfl⟩ := h
  refine List.foldlRecOn (motive := fun r : Registry => r.keys.Nodup) actions _ List.nodup_nil
    fun r h action _ => nodup_keys_perform h action

/-- Every request in flight is found under its key. -/
theorem find?_of_mem (h : r.keys.Nodup) {entry : RequestKey × MiniFuture}
    (hentry : entry ∈ r.inFlight) : r.find? entry.1 = some entry.2 := by
  unfold keys at h
  unfold find?
  generalize r.inFlight = entries at h hentry
  induction entries with
  | nil => cases hentry
  | cons first rest ih =>
    obtain ⟨hfirst, hrest⟩ := List.nodup_cons.mp h
    rw [lookup_cons_eq]
    rcases List.mem_cons.mp hentry with rfl | hmem
    · rw [if_pos rfl]
    · have hne : entry.1 ≠ first.1 := fun heq => hfirst (heq ▸ List.mem_map_of_mem hmem)
      rw [if_neg hne]
      exact ih hrest hmem

/-! ## Receivers that are left alone -/

/-- Closing a receiver leaves the others alone. -/
theorem receiver_close_of_ne {waiter : Option Nat} (h : waiter ≠ some rx) :
    (r.close waiter).receiver rx = r.receiver rx := by
  unfold close
  split
  · rfl
  · next rx' =>
    split
    · rw [receiver_set, if_neg fun heq => h (congrArg some heq.1)]
    · rfl

/-- Telling a receiver an outcome leaves the others alone. -/
theorem receiver_deliver_of_ne {waiter : Option Nat} {outcome : Delivery} (h : waiter ≠ some rx) :
    (r.deliver waiter outcome).2.receiver rx = r.receiver rx := by
  unfold deliver
  split
  · rfl
  · next rx' =>
    split
    · rw [receiver_set, if_neg fun heq => h (congrArg some heq.1)]
    · rfl

/-- A receiver does not wait any more once it is closed. -/
theorem receiver_close_ne_waiting (r : Registry) (rx : Nat) :
    (r.close (some rx)).receiver rx ≠ .waiting := by
  intro hwaiting
  unfold close at hwaiting
  dsimp only at hwaiting
  split at hwaiting
  · next hold =>
    have hlt : rx < r.receivers.length := lt_of_receiver fun h => by rw [hold] at h; cases h
    rw [receiver_set, if_pos ⟨rfl, hlt⟩] at hwaiting
    cases hwaiting
  · next hold => exact hold hwaiting

/-- The entry that a registration replaces has been told to be mapped again, and its waiter is
closed. -/
theorem register_eq (r : Registry) (key : RequestKey) :
    (∃ err, r.register key = (.error err, r)) ∨
      ∃ (r' : Registry) (attempts : UInt32),
        r.register key = (.ok r.receivers.length, r') ∧
        (∀ entry, r.find? key = some entry → entry.state = .retryTopology) ∧
        r'.receivers = (r.close ((r.find? key).bind MiniFuture.waiter)).receivers ++ [.waiting] ∧
        r'.find? key = some ⟨.created, some r.receivers.length, attempts⟩ := by
  unfold register
  cases hfind : r.find? key with
  | none =>
    refine .inr ⟨_, 1, rfl, nofun, rfl, ?_⟩
    rw [find?, List.lookup_append, ← find?, hfind, Option.none_or, lookup_cons_eq, if_pos rfl]
  | some entry =>
    dsimp only
    split
    · next hstep =>
      refine .inr ⟨_, entry.attempts + 1, rfl, fun entry' hentry' => ?_, rfl, ?_⟩
      · obtain rfl := Option.some.inj hentry'
        revert hstep
        cases entry.state <;> decide
      · have hmodified := find?_modify (r.close entry.waiter) key
          (fun e => ⟨.created, some r.receivers.length, e.attempts + 1⟩) key
        rw [if_pos rfl, find?_close, hfind] at hmodified
        exact hmodified
    · exact .inl ⟨_, rfl⟩

/-- An action that is about a request leaves the receivers alone at which this does not wait. -/
theorem receiver_perform {action : RegistryAction} (hkey : action.key? = some k)
    (hlt : rx < r.receivers.length) (hnot : ¬r.Awaited k rx) :
    (r.perform action).receiver rx = r.receiver rx := by
  have hwaiter : ∀ entry, r.find? k = some entry → entry.waiter ≠ some rx :=
    fun entry hfind heq => hnot ⟨entry, hfind, heq⟩
  cases action with
  | register key =>
    cases hkey
    rcases r.register_eq k with ⟨err, heq⟩ | ⟨r', attempts, heq, -, hreceivers, -⟩ <;>
      rw [perform, heq]
    have hne : (r.find? k).bind MiniFuture.waiter ≠ some rx := fun h => by
      obtain ⟨entry, hfind, heq⟩ := Option.bind_eq_some_iff.mp h
      exact hwaiter entry hfind heq
    have hold := receiver_close_of_ne (r := r) hne
    have hlength := r.length_close ((r.find? k).bind MiniFuture.waiter)
    simp only [receiver, List.getD_eq_getElem?_getD] at hold ⊢
    rw [hreceivers, List.getElem?_append_left (by omega), hold]
  | transition key target =>
    simp only [perform, transition]
    split
    · rfl
    · split <;> rfl
  | respond response =>
    cases hkey
    rcases r.onResponse_cases response with heq | ⟨entry, r', hfind, -, hreceivers, -, heq⟩ <;>
      rw [perform, heq]
    rw [receiver_deliver_of_ne (hwaiter entry hfind), receiver, hreceivers, receiver]
  | fail key e =>
    cases hkey
    simp only [perform, onFailure]
    split
    · rfl
    · next entry hfind => exact receiver_deliver_of_ne (hwaiter entry hfind)
  | complete key =>
    cases hkey
    simp only [perform, complete]
    split
    · rfl
    · next entry hfind => exact receiver_close_of_ne (hwaiter entry hfind)
  | cancel | poll | drop => cases hkey

/-- Cancelling an operation leaves the receivers alone at which none of its requests waits. -/
theorem receiver_cancel (h : r.keys.Nodup) {future : FutureId}
    (hnot : ∀ mini, ¬r.Awaited (future, mini) rx) :
    (r.cancel future).2.receiver rx = r.receiver rx := by
  refine List.foldlRecOn (motive := fun r' : Registry => r'.receiver rx = r.receiver rx) _ _ rfl
    fun r' hsame entry hentry => ?_
  obtain ⟨hmem, hfuture⟩ := List.mem_filter.mp hentry
  have hfind := find?_of_mem h hmem
  rw [receiver_close_of_ne, hsame]
  intro heq
  exact hnot entry.1.2 ⟨entry.2, by rw [← eq_of_beq hfuture]; exact hfind, heq⟩

/-- Once an operation is cancelled, nobody waits for its requests. -/
theorem receiver_cancel_ne_waiting {future : FutureId} {mini : MiniId}
    (h : r.Awaited (future, mini) rx) : (r.cancel future).2.receiver rx ≠ .waiting := by
  obtain ⟨entry, hfind, hwaiter⟩ := h
  have hmem : ((future, mini), entry) ∈ r.inFlight.filter fun entry => entry.1.1 == future := by
    obtain ⟨before, after, heq, -⟩ := List.lookup_eq_some_iff.mp hfind
    rw [heq]
    simp
  unfold cancel
  dsimp only
  generalize (r.inFlight.filter fun entry => entry.1.1 == future) = cancelled at hmem
  generalize
    ({ r with inFlight := r.inFlight.filter fun entry => entry.1.1 != future } : Registry) = kept
  induction cancelled generalizing kept with
  | nil => cases hmem
  | cons first rest ih =>
    rw [List.foldl_cons]
    rcases List.mem_cons.mp hmem with rfl | hmem
    · rw [hwaiter]
      refine List.foldlRecOn (motive := fun r' : Registry => r'.receiver rx ≠ .waiting) _ _
        (kept.receiver_close_ne_waiting rx) fun r' h entry _ => ?_
      exact (r'.moves_close entry.2.waiter rx).ne_waiting h
    · exact ih hmem _

end Registry

/-! ## Launching requests -/

namespace Registry

variable {r : Registry} {key : RequestKey} {rx : Nat} {attempts : UInt32}

/-- A request in flight is taken to a state along an edge of its lifecycle. -/
theorem transition_ok {entry : MiniFuture} (target : RequestState)
    (hfind : r.find? key = some entry) (hstep : entry.state.canTransition target = true) :
    r.transition key target = (.ok (), r.modify key fun e => { e with state := target }) := by
  simp only [transition, hfind, if_pos hstep]

/-- Completing a request forgets it and closes the receiver that it waits at. -/
theorem complete_eq {entry : MiniFuture} (hfind : r.find? key = some entry) :
    r.complete key = (r.remove key).close entry.waiter := by
  simp only [complete, hfind]

/-- A request that has been registered is sent, unless it cannot be brought into octets. Then it is
forgotten. -/
theorem launch_eq (hfind : r.find? key = some ⟨.created, some rx, attempts⟩)
    (encoded : Except EnlistError Bytes) :
    (∃ err r', Enlister.launch r key rx encoded = (.error err, r') ∧ r'.find? key = none ∧
      (∀ k, k ≠ key → r'.find? k = r.find? k) ∧
      ∀ rx', rx' ≠ rx → r'.receiver rx' = r.receiver rx') ∨
      ∃ payload r', Enlister.launch r key rx encoded = (.ok (rx, payload), r') ∧
        r'.find? key = some ⟨.sent, some rx, attempts⟩ ∧
        (∀ k, k ≠ key → r'.find? k = r.find? k) ∧ r'.receivers = r.receivers := by
  have hmodified : ∀ (r' : Registry) (f : MiniFuture → MiniFuture) (entry : MiniFuture),
      r'.find? key = some entry → (r'.modify key f).find? key = some (f entry) := by
    intro r' f entry hentry
    rw [find?_modify, if_pos rfl, hentry]
    rfl
  cases encoded with
  | error err =>
    have hfailed := hmodified r ({ · with state := .failed }) _ hfind
    refine .inl ⟨err, ((r.modify key ({ · with state := .failed })).remove key).close (some rx),
      ?_, ?_, fun k hk => ?_, fun rx' hne => ?_⟩
    · simp only [Enlister.launch, transition_ok .failed hfind rfl, complete_eq hfailed]
    · rw [find?_close, find?_remove, if_pos rfl]
    · rw [find?_close, find?_remove, if_neg hk, find?_modify, if_neg hk]
    · exact receiver_close_of_ne fun heq => hne (Option.some.inj heq).symm
  | ok payload =>
    have hmarshalled := hmodified r ({ · with state := .marshalled }) _ hfind
    refine .inr ⟨payload, _, ?_, hmodified _ ({ · with state := .sent }) _ hmarshalled,
      fun k hk => ?_, rfl⟩
    · simp only [Enlister.launch, transition_ok .marshalled hfind rfl,
        transition_ok .sent hmarshalled rfl]
    · rw [find?_modify, if_neg hk, find?_modify, if_neg hk]

end Registry

/-! ## What a call does to a registry -/

open Registry

variable {σ : Type}

/-- Launching a request is done by actions on the registry. -/
theorem Enlister.leads_launch (r : Registry) (key : RequestKey) (rx : Nat)
    (encoded : Except EnlistError Bytes) : r.Leads (launch r key rx encoded).2 := by
  cases encoded with
  | error err =>
    have hfailed := r.leads_perform (.transition key .failed)
    rw [Registry.perform] at hfailed
    rcases hr : r.transition key .failed with ⟨_ | _, r'⟩ <;> rw [hr] at hfailed <;>
      simp only [launch, hr]
    · exact hfailed
    · exact hfailed.trans (r'.leads_perform (.complete key))
  | ok payload =>
    have hmarshalled := r.leads_perform (.transition key .marshalled)
    rw [Registry.perform] at hmarshalled
    rcases hr : r.transition key .marshalled with ⟨_ | _, r'⟩ <;> rw [hr] at hmarshalled <;>
      simp only [launch, hr]
    · exact hmarshalled
    · have hsent := hmarshalled.trans (r'.leads_perform (.transition key .sent))
      rw [Registry.perform] at hsent
      rcases hr' : r'.transition key .sent with ⟨_ | _, r''⟩ <;> rw [hr'] at hsent <;> exact hsent

/-- Dispatching a part is done by actions on the registry. -/
theorem Enlister.leads_dispatch (e : Enlister σ) (future : FutureId) (part : Part)
    (request : Int64 → EnlistRequest σ) :
    e.registry.Leads (e.dispatch future part request).2.registry := by
  have hregistered := e.registry.leads_perform (.register (future, part.mini))
  rw [Registry.perform] at hregistered
  rcases hr : e.registry.register (future, part.mini) with ⟨_ | rx, r⟩ <;>
    rw [hr] at hregistered <;> simp only [dispatch, hr]
  · exact hregistered
  · exact hregistered.trans (leads_launch r _ rx _)

/-- Settling an exchange is done by actions on the registry. -/
theorem Enlister.leads_settle (e : Enlister σ) (key : RequestKey) (limitMs : Nat) (x : Exchange) :
    e.registry.Leads (e.settle key limitMs x).registry := by
  cases x with
  | failed chain => exact e.registry.leads_perform (.fail key _)
  | timedOut => exact e.registry.leads_perform (.fail key _)
  | replied bytes =>
    simp only [settle]
    split
    · exact e.registry.leads_perform (.fail key _)
    · next response _ =>
      have haccepted := e.registry.leads_perform (.respond response)
      rw [Registry.perform] at haccepted
      unfold accept
      rcases hr : e.registry.onResponse response with ⟨_ | _, r⟩ <;> rw [hr] at haccepted
      · exact haccepted.trans (r.leads_perform (.fail key _))
      · exact haccepted

/-- Collecting an outcome is done by actions on the registry. -/
theorem Enlister.leads_collect (e : Enlister σ) (key : RequestKey) (rx : Nat) :
    e.registry.Leads (e.collect key rx).2.registry := by
  rw [collect_eq]
  exact e.registry.leads_perform (.poll rx)

namespace Call

/-- Completing the requests to be mapped again is done by actions on the registry. -/
theorem leads_completeRemapped (future : FutureId) (topology : TopologyVersion) (r : Registry)
    (parts : List Part) : r.Leads (completeRemapped future topology r parts) := by
  induction parts generalizing r with
  | nil => exact .refl r
  | cons part rest ih =>
    refine Leads.trans ?_ (ih _)
    split
    · split
      · exact r.leads_perform (.complete (future, part.mini))
      · exact .refl r
    · exact .refl r

/-- An event of a call does nothing but use the registry. -/
theorem leads_step (call : Call σ) (e : Enlister σ) (now : Nat) (event : Event) :
    e.registry.Leads (call.step e now event).2.2.registry := by
  have hsame : e.registry.Leads e.registry := .refl _
  have heffect := call.step_effect e now event
  generalize call.step e now event = r at heffect ⊢
  cases heffect with
  | idle => exact hsame
  | @map seen hphase =>
    unfold mapRound
    split
    · exact hsame
    · rcases hmap : e.mapRows seen.views call.outstanding with ⟨_ | _, e'⟩
      · obtain rfl := Enlister.mapRows_error hmap
        exact hsame
      · obtain ⟨-, -, -, nextMini, rfl⟩ := Enlister.mapRows_ok hmap
        exact hsame
  | @send version parts index part hphase hpart hplanned =>
    unfold sendPart
    dsimp only
    generalize call.request e version part _ = request
    have hleads := e.leads_dispatch call.future part request
    rcases hr : e.dispatch call.future part request with ⟨_ | _, e'⟩ <;> rw [hr] at hleads <;>
      exact hleads
  | settle hphase hpart hsent => exact e.leads_settle ..
  | @collect _ _ _ part rx _ e' _ _ _ hcollect =>
    have hleads := e.leads_collect (call.future, part.mini) rx
    rwa [hcollect] at hleads
  | @close version parts _ _ _ =>
    have hcompleted := leads_completeRemapped call.future version e.registry parts
    unfold closeRound
    dsimp only
    split
    · exact hcompleted.trans (leads_perform _ (.cancel call.future))
    · exact hcompleted
    · split
      · exact hcompleted.trans (leads_perform _ (.cancel call.future))
      · exact hcompleted
  | resume => exact hsame
  | giveUp =>
    unfold abandon
    split <;> exact e.registry.leads_perform (.cancel call.future)

end Call

end Enlistment
