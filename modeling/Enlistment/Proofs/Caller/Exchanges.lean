import Enlistment.Caller.Call
import Enlistment.Proofs.Caller.Receivers

/-!
# The outcome of an exchange

An event of a call has one of a few effects. The receiver of a request is told how its exchange has
ended: with the response that was read, or with an error. Only a response can ask for a remap; no
error of the caller does.
-/

namespace Enlistment

open Registry

variable {σ : Type}

/-- A part of a round at another stage. -/
theorem Call.setStage_eq {call : Call σ} {topology : TopologyVersion} {parts : List Part}
    {index : Nat} {part : Part} (hphase : call.phase = .exchanging topology parts)
    (hpart : parts[index]? = some part) (stage : PartStage) :
    call.setStage index stage = { call with
      phase := .exchanging topology (parts.set index { part with stage }) } := by
  have hmodify : (parts.modify index fun part => { part with stage }) =
      parts.set index { part with stage } := by
    refine List.ext_getElem? fun other => ?_
    rw [List.getElem?_modify, List.getElem?_set]
    split
    · next heq =>
      subst heq
      rw [hpart, if_pos (List.getElem?_eq_some_iff.mp hpart).1]
      rfl
    · exact Option.map_id_apply
  simp only [Call.setStage, hphase, hmodify]

/-- A part at another stage is no remap. -/
theorem Call.attempt_setStage (call : Call σ) (index : Nat) (stage : PartStage) :
    (call.setStage index stage).attempt = call.attempt := by
  unfold setStage
  split <;> rfl

/-- Mapping rows is no remap. -/
theorem Call.attempt_mapRound (call : Call σ) (e : Enlister σ) (seen : Readings) :
    (call.mapRound e seen).1.attempt = call.attempt := by
  unfold mapRound
  split
  · rfl
  · split <;> rfl

namespace Enlister

/-- The outcomes of an exchange that has ended in some way. -/
def Ends (e : Enlister σ) (x : Exchange) (outcome : Delivery) : Prop :=
  (∃ err : EnlistError, outcome = .error err ∧ err.IsUnanswered) ∨
    ∃ bytes, x = .replied bytes ∧ e.readReply bytes = outcome

/-- A request that cannot be brought into octets fails for a reason of the caller. -/
theorem encodeRequest_error {e : Enlister σ} {part : Part} {req : EnlistRequest σ}
    {err : EnlistError} (h : e.encodeRequest part req = .error err) : err.IsOwn := by
  unfold encodeRequest at h
  split at h
  · rw [← Except.error.inj h]
    trivial
  · next req' hreq =>
    cases hchunked : Draft.encodeChunked ⟨.request, WireForm.toRecord req'⟩ e.config.chunkSize with
    | error cause =>
      rw [hchunked] at h
      rw [← Except.error.inj h]
      trivial
    | ok bs =>
      rw [hchunked] at h
      cases h

/-- A response cannot be read for a reason of the stream or of unmarshalling. -/
theorem readReply_error {e : Enlister σ} {bytes : Bytes} {err : EnlistError}
    (h : e.readReply bytes = .error err) :
    (∃ cause, err = .codec cause) ∨ ∃ cause, err = .unmarshal cause := by
  unfold readReply at h
  split at h
  · exact .inl ⟨_, (Except.error.inj h).symm⟩
  · split at h
    · exact .inr ⟨_, (Except.error.inj h).symm⟩
    · cases h
  · exact .inl ⟨_, (Except.error.inj h).symm⟩

end Enlister

/-- A step of a request that it cannot take is not to be tried again. -/
theorem Registry.transition_error {r r' : Registry} {key : RequestKey} {target : RequestState}
    {err : EnlistError} (h : r.transition key target = (.error err, r')) :
    err.IsOwn := by
  unfold transition at h
  split at h
  · rw [← Except.error.inj (Prod.mk.inj h).1]
    trivial
  · split at h
    · cases h
    · rw [← Except.error.inj (Prod.mk.inj h).1]
      trivial

namespace Enlister

/-- Launching a request tells nobody anything. It gives the receiver and the octets, or an error
of the caller. -/
theorem launch_cases (registry : Registry) (key : RequestKey) (rx : Nat)
    {encoded : Except EnlistError Bytes}
    (hencoded : ∀ err, encoded = .error err → err.IsOwn) :
    Tells key (fun _ => False) registry (launch registry key rx encoded).2 ∧
      ((∃ err, (launch registry key rx encoded).1 = .error err ∧ err.IsOwn) ∨
        ∃ payload, (launch registry key rx encoded).1 = .ok (rx, payload) ∧
          encoded = .ok payload) := by
  cases encoded with
  | error err =>
    have htells : Tells key (fun _ => False) registry _ := registry.tells_transition key .failed
    rcases hfailed : registry.transition key .failed with ⟨fault | _, r⟩ <;>
      rw [hfailed] at htells <;> simp only [launch, hfailed]
    · exact ⟨htells, .inl ⟨fault, rfl, transition_error hfailed⟩⟩
    · exact ⟨htells.trans (tells_complete r key), .inl ⟨err, rfl, hencoded err rfl⟩⟩
  | ok payload =>
    have htells : Tells key (fun _ => False) registry _ := registry.tells_transition key .marshalled
    rcases hmarshalled : registry.transition key .marshalled with ⟨fault | _, r⟩ <;>
      rw [hmarshalled] at htells <;> simp only [launch, hmarshalled]
    · exact ⟨htells, .inl ⟨fault, rfl, transition_error hmarshalled⟩⟩
    · have htells' := htells.trans (r.tells_transition key .sent)
      rcases hsent : r.transition key .sent with ⟨fault | _, r'⟩ <;> rw [hsent] at htells'
      · exact ⟨htells', .inl ⟨fault, rfl, transition_error hsent⟩⟩
      · exact ⟨htells', .inr ⟨payload, rfl, rfl⟩⟩

/-- Dispatching a request tells nobody anything. It ends with an error of the caller, or with
the octets of the request and a receiver that is reserved for it. -/
theorem dispatch_cases (e : Enlister σ) (future : FutureId) (part : Part)
    (request : Int64 → EnlistRequest σ) (hsound : e.registry.Sound) :
    ∃ registry nextMessageId,
      (e.dispatch future part request).2 = { e with registry, nextMessageId } ∧
      Tells (future, part.mini) (fun _ => False) e.registry registry ∧
      ((∃ err, (e.dispatch future part request).1 = .error err ∧ err.IsOwn) ∨
        ∃ rx payload, (e.dispatch future part request).1 = .ok (rx, payload) ∧
          e.encodeRequest part (request e.nextMessageId) = .ok payload ∧
          registry.Reserves (future, part.mini) rx fun _ => False) := by
  have hregister : Tells (future, part.mini) (fun _ => False) e.registry _ :=
    e.registry.tells_register (future, part.mini)
  rcases hr : e.registry.register (future, part.mini) with ⟨err | rx, r⟩ <;>
    rw [hr] at hregister <;> simp only [dispatch, hr]
  · refine ⟨r, e.nextMessageId, rfl, hregister, .inl ⟨err, rfl, ?_⟩⟩
    rcases e.registry.register_cases (future, part.mini) with ⟨err', heq, herr⟩ | ⟨r', heq, -⟩
    · rw [heq] at hr
      rwa [← Except.error.inj (Prod.mk.inj hr).1]
    · rw [heq] at hr
      cases hr
  · have hencoded : ∀ err, e.encodeRequest part (request e.nextMessageId) = .error err →
        err.IsOwn := fun err => encodeRequest_error
    obtain ⟨hlaunch, hresult⟩ := launch_cases r (future, part.mini) rx hencoded
    refine ⟨_, _, rfl, hregister.trans hlaunch, hresult.imp (fun h => h) ?_⟩
    rintro ⟨payload, heq, hpayload⟩
    exact ⟨rx, payload, heq, hpayload,
      (reserves_register hsound hr).tells hlaunch fun _ _ hfalse => hfalse⟩

/-- However an exchange ends, nobody but the receiver of its request is told so, if what it
brings is the response to this request. -/
theorem settle_tells (e : Enlister σ) (key : RequestKey) (limitMs : Nat) (x : Exchange)
    (hanswer : ∀ bytes response, x = .replied bytes → e.readReply bytes = .ok response →
      (response.futureId, response.mini) = key) :
    ∃ registry, e.settle key limitMs x = { e with registry } ∧
      Tells key (e.Ends x) e.registry registry := by
  have hfailure : ∀ (r : Registry) (err : EnlistError), e.Ends x (.error err) →
      Tells key (e.Ends x) r (r.onFailure key err).2 := fun r err hends =>
    (r.tells_onFailure key err).mono fun outcome houtcome => houtcome ▸ hends
  cases x with
  | failed chain => exact ⟨_, rfl, hfailure _ _ (.inl ⟨_, rfl, trivial⟩)⟩
  | timedOut => exact ⟨_, rfl, hfailure _ _ (.inl ⟨_, rfl, trivial⟩)⟩
  | replied bytes =>
    refine ⟨_, rfl, ?_⟩
    dsimp only
    cases hread : e.readReply bytes with
    | error err => exact hfailure _ _ (.inr ⟨bytes, rfl, hread⟩)
    | ok response =>
      have hkey := hanswer bytes response rfl hread
      have hresponse : Tells key (e.Ends (.replied bytes)) e.registry
          (e.registry.onResponse response).2 := by
        rw [← hkey]
        exact (e.registry.tells_onResponse response).mono fun outcome houtcome =>
          .inr ⟨bytes, rfl, hread.trans houtcome.symm⟩
      rcases haccepted : e.registry.onResponse response with ⟨_ | _, r⟩ <;>
        rw [haccepted] at hresponse <;> simp only [accept, haccepted]
      · exact hresponse.trans (hfailure r _ (.inl ⟨_, rfl, rfl⟩))
      · exact hresponse

/-- What is taken from a receiver is what it holds, and a receiver that will never hold anything
means that the request was cancelled. -/
theorem collect_eq (e : Enlister σ) (key : RequestKey) (rx : Nat) :
    e.collect key rx =
      (match e.registry.receiver rx with
        | .waiting => none
        | .delivered outcome => some outcome
        | .closed | .dropped => some (.error (.cancelled key.1 key.2)),
        { e with registry := (e.registry.poll rx).2 }) := by
  have hpoll : e.registry.poll rx = (e.registry.receiver rx, (e.registry.poll rx).2) := by
    unfold poll
    split
    · next outcome hreceiver => rw [hreceiver]
    · rfl
  rw [collect, hpoll]
  cases e.registry.receiver rx <;> rfl

/-- Looking at a receiver that waits changes nothing. -/
theorem collect_none {e e' : Enlister σ} {key : RequestKey} {rx : Nat}
    (h : e.collect key rx = (none, e')) : e' = e := by
  rw [collect_eq] at h
  obtain ⟨hnone, rfl⟩ := Prod.mk.inj h
  cases hreceiver : e.registry.receiver rx with
  | waiting => simp only [poll, hreceiver]
  | delivered _ | closed | dropped =>
    rw [hreceiver] at hnone
    cases hnone

/-- What is taken from a receiver was told to it, or nothing will be told to it any more. -/
theorem collect_some {e e' : Enlister σ} {key : RequestKey} {rx : Nat} {outcome : Delivery}
    (h : e.collect key rx = (some outcome, e')) :
    e' = { e with registry := (e.registry.poll rx).2 } ∧
      (e.registry.receiver rx = .delivered outcome ∨
        outcome = .error (.cancelled key.1 key.2)) := by
  rw [collect_eq] at h
  obtain ⟨hsome, rfl⟩ := Prod.mk.inj h
  refine ⟨rfl, ?_⟩
  cases hreceiver : e.registry.receiver rx <;> rw [hreceiver] at hsome
  case waiting => cases hsome
  case delivered told => exact .inl (congrArg _ (Option.some.inj hsome))
  case closed => exact .inr (Option.some.inj hsome).symm
  case dropped => exact .inr (Option.some.inj hsome).symm

end Enlister

/-- Forgetting the requests that are to be mapped again tells nobody anything. -/
theorem tells_completeRemapped {key : RequestKey} {told : Delivery → Prop} (future : FutureId)
    (topology : TopologyVersion) (registry : Registry) (parts : List Part) :
    Tells key told registry (Call.completeRemapped future topology registry parts) := by
  induction parts generalizing registry with
  | nil => exact .refl ..
  | cons part rest ih =>
    refine Tells.trans ?_ (ih _)
    split
    · split
      · exact tells_complete _ _
      · exact .refl ..
    · exact .refl ..

/-! ## Events -/

namespace Call

/-- What an event at a time comes to: the request that is sent, the call and its enlister. -/
inductive Effect (call : Call σ) (e : Enlister σ) (now : Nat) :
    Event → Option Dispatch × Call σ × Enlister σ → Prop
  /-- The event does not fit the state of the call, is too early, or finds nothing. -/
  | idle {event : Event} : Effect call e now event (none, call, e)
  | map {seen : Readings} (hphase : call.phase = .mapping) :
      Effect call e now (.map seen) (none, call.mapRound e seen)
  | send {version : TopologyVersion} {parts : List Part} {index : Nat} {part : Part}
      (hphase : call.phase = .exchanging version parts) (hpart : parts[index]? = some part)
      (hplanned : part.stage = .planned) :
      Effect call e now (.send index) (call.sendPart e now version index part)
  | settle {version : TopologyVersion} {parts : List Part} {index : Nat} {part : Part}
      {rx sentAt limitMs : Nat} {x : Exchange} (hphase : call.phase = .exchanging version parts)
      (hpart : parts[index]? = some part) (hsent : part.stage = .sent rx sentAt limitMs) :
      Effect call e now (.settle index x) (none, call.setStage index (.settled rx),
        e.settle (call.future, part.mini) limitMs x)
  | collect {version : TopologyVersion} {parts : List Part} {index : Nat} {part : Part} {rx : Nat}
      {outcome : Delivery} {e' : Enlister σ} (hphase : call.phase = .exchanging version parts)
      (hpart : parts[index]? = some part) (hsettled : part.stage = .settled rx)
      (hcollect : e.collect (call.future, part.mini) rx = (some outcome, e')) :
      Effect call e now (.collect index) (none, call.setStage index (.ended outcome), e')
  | close {version : TopologyVersion} {parts : List Part} {o : RoundOutcome}
      (hphase : call.phase = .exchanging version parts)
      (ho : roundOutcome version { result := call.result } parts = some o) :
      Effect call e now .close (none, call.closeRound e now version parts o)
  | resume {view : TopologyView} {requested current : TopologyVersion} {mini : MiniId}
      {giveUpAt : Nat} (hphase : call.phase = .remapping requested current mini giveUpAt)
      (hreached : view.hasReached current = true) :
      Effect call e now (.resume view) (none, call.nextRound, e)
  | giveUp {requested current : TopologyVersion} {mini : MiniId} {giveUpAt : Nat}
      (hphase : call.phase = .remapping requested current mini giveUpAt) (hlate : giveUpAt ≤ now) :
      Effect call e now .giveUp (none, call.abandon e now requested current mini)

/-- Every event has one of these effects. The cases are those of the phases of the call. -/
theorem step_effect (call : Call σ) (e : Enlister σ) (now : Nat) (event : Event) :
    call.Effect e now event (call.step e now event) := by
  unfold step
  split
  · next hphase => exact .map hphase
  · next hphase =>
    split
    · next hpart =>
      split
      · next hplanned => exact .send hphase hpart hplanned
      · exact .idle
    · exact .idle
  · next hphase =>
    split
    · next hpart =>
      split
      · next hsent => exact .settle hphase hpart hsent
      · exact .idle
    · exact .idle
  · next hphase =>
    split
    · next hpart =>
      split
      · next hsettled =>
        split
        · next hcollect =>
          rw [Enlister.collect_none hcollect]
          exact .idle
        · next hcollect => exact .collect hphase hpart hsettled hcollect
      · exact .idle
    · exact .idle
  · next hphase =>
    split
    · next ho => exact .close hphase ho
    · exact .idle
  · next hphase =>
    split
    · next hreached => exact .resume hphase hreached
    · exact .idle
  · next hphase =>
    split
    · next hlate => exact .giveUp hphase hlate
    · exact .idle
  · exact .idle

end Call

end Enlistment
