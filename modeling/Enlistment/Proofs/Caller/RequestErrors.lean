import Enlistment.Proofs.Caller.Sessions

/-!
# What requests fail for

There is one error that no request has: that there were too many remaps. A part fails with another
one before its request is sent, no exchange ends with it, and nothing that others do tells it to a
receiver of the call. So a call that reports it has counted its remaps.
-/

namespace Enlistment

open Registry

variable {σ : Type}

/-- An error that a request can have. -/
def EnlistError.OfRequest : EnlistError → Prop
  | remapLimit _ => False
  | _ => True

/-- An outcome that a request can have. -/
def OfRequest (outcome : Delivery) : Prop := ∀ err, outcome = .error err → err.OfRequest

/-- An error that a request can have is such an outcome. -/
theorem OfRequest.error {err : EnlistError} (h : err.OfRequest) : OfRequest (.error err) :=
  fun _ heq => Except.error.inj heq ▸ h

/-- A response is an outcome that a request can have. -/
theorem OfRequest.ok (response : EnlistResponse) : OfRequest (.ok response) := nofun

/-- The result of a part is that of its request, so its error is one that a request can have. -/
theorem OfRequest.toResult {outcome : Delivery} (h : OfRequest outcome) {topology : TopologyVersion}
    {err : EnlistError}
    (herr : (outcome.bind fun response => response.toResult topology) = .error err) :
    err.OfRequest := by
  cases outcome with
  | error cause =>
    obtain rfl : cause = err := Except.error.inj herr
    exact h cause rfl
  | ok response =>
    simp only [Except.bind, EnlistResponse.toResult] at herr
    split at herr
    · exact Except.error.inj herr ▸ trivial
    · exact Except.error.inj herr ▸ trivial
    · cases herr

/-! ## Before a request is sent -/

/-- Mapping rows fails with errors that a request can have. -/
theorem Enlister.mapRows_ofRequest {e : Enlister σ} {views : Nat → TopologyView}
    {rows : List IndexedRow} {err : EnlistError} (h : (e.mapRows views rows).1 = .error err) :
    err.OfRequest := by
  obtain ⟨row, -, hlost⟩ := exists_of_mapRows_error h
  rcases ownerOf_error hlost with ⟨-, rfl⟩ | ⟨-, -, rfl⟩ <;> trivial

/-- A transition fails with errors that a request can have. -/
theorem Registry.transition_ofRequest {r r' : Registry} {key : RequestKey} {target : RequestState}
    {err : EnlistError} (h : r.transition key target = (.error err, r')) : err.OfRequest := by
  unfold transition at h
  split at h
  · exact Except.error.inj (Prod.mk.inj h).1 ▸ trivial
  · split at h
    · cases h
    · exact Except.error.inj (Prod.mk.inj h).1 ▸ trivial

/-- Encoding a request fails with errors that a request can have. -/
theorem Enlister.encodeRequest_ofRequest {e : Enlister σ} {part : Part} {req : EnlistRequest σ}
    {err : EnlistError} (h : e.encodeRequest part req = .error err) : err.OfRequest := by
  unfold encodeRequest at h
  split at h
  · exact Except.error.inj h ▸ trivial
  · next req' _ =>
    cases hchunked : Draft.encodeChunked ⟨.request, WireForm.toRecord req'⟩ e.config.chunkSize with
    | error cause =>
      rw [hchunked] at h
      exact Except.error.inj h ▸ trivial
    | ok bs =>
      rw [hchunked] at h
      cases h

/-- Launching a request fails with errors that a request can have. -/
theorem Enlister.launch_ofRequest {registry : Registry} {key : RequestKey} {rx : Nat}
    {encoded : Except EnlistError Bytes} {err : EnlistError}
    (hencoded : ∀ err, encoded = .error err → err.OfRequest)
    (h : (launch registry key rx encoded).1 = .error err) : err.OfRequest := by
  unfold launch at h
  split at h
  · next cause =>
    split at h
    · next hfailed => exact Except.error.inj h ▸ transition_ofRequest hfailed
    · exact hencoded err (congrArg Except.error (Except.error.inj h))
  · split at h
    · next hmarshalled => exact Except.error.inj h ▸ transition_ofRequest hmarshalled
    · split at h
      · next hsent => exact Except.error.inj h ▸ transition_ofRequest hsent
      · cases h

/-- Dispatching a part fails with errors that a request can have. -/
theorem Enlister.dispatch_ofRequest {e : Enlister σ} {future : FutureId} {part : Part}
    {request : Int64 → EnlistRequest σ} {err : EnlistError}
    (h : (e.dispatch future part request).1 = .error err) : err.OfRequest := by
  unfold dispatch at h
  dsimp only at h
  split at h
  · next fault r hregister =>
    obtain rfl := Except.error.inj h
    unfold register at hregister
    split at hregister
    · cases hregister
    · split at hregister
      · cases hregister
      · exact Except.error.inj (Prod.mk.inj hregister).1 ▸ trivial
  · exact launch_ofRequest (fun _ => encodeRequest_ofRequest) h

/-! ## At the receivers -/

/-- The receiver of a request of the call, which is told an outcome that a request can have. -/
def Registry.Reports (r : Registry) (future : FutureId) (mini : MiniId) (rx : Nat) : Prop :=
  r.Reserves (future, mini) rx OfRequest

namespace Registry.Reports

variable {r : Registry} {future : FutureId} {mini : MiniId} {rx : Nat}

/-- A receiver that is told nothing. -/
theorem quiet {r' : Registry} (h : r.Reports future mini rx)
    (htells : ∀ key, Tells key (fun _ => False) r r') : r'.Reports future mini rx :=
  h.tells (htells (future, mini)) fun _ _ => False.elim

/-- A response keeps the receiver of a request one. -/
theorem respond (h : r.Reports future mini rx) (response : EnlistResponse) :
    (r.onResponse response).2.Reports future mini rx :=
  h.tells (r.tells_onResponse response) fun _ _ htold => htold ▸ .ok response

/-- A failure keeps the receiver of a request one, if a request can have it. -/
theorem fail (h : r.Reports future mini rx) {key : RequestKey} {err : EnlistError}
    (herr : key = (future, mini) → err.OfRequest) :
    (r.onFailure key err).2.Reports future mini rx :=
  h.tells (r.tells_onFailure key err) fun hkey _ htold => htold ▸ .error (herr hkey)

/-- Nothing that is done to a registry tells a receiver what a request cannot have, unless the
request itself is failed with it. -/
theorem perform (h : r.Reports future mini rx) {action : RegistryAction}
    (haction : ∀ err, action = .fail (future, mini) err → err.OfRequest) :
    (r.perform action).Reports future mini rx := by
  cases action with
  | register key => exact h.quiet fun _ => r.tells_register key
  | transition key target => exact h.quiet fun _ => r.tells_transition key target
  | respond response => exact h.respond response
  | fail key err => exact h.fail fun hkey => haction err (hkey ▸ rfl)
  | complete key => exact h.quiet fun _ => r.tells_complete key
  | cancel other => exact h.quiet fun _ => r.tells_cancel other
  | poll rx' => exact h.quiet fun _ => r.tells_poll rx'
  | drop rx' => exact h.quiet fun _ => r.tells_drop rx'

/-- The end of an exchange tells a receiver an outcome that a request can have, whatever octets the
exchange ends with and whatever request it is of. -/
theorem settle {e : Enlister σ} (h : e.registry.Reports future mini rx) (key : RequestKey)
    (limitMs : Nat) (x : Exchange) : (e.settle key limitMs x).registry.Reports future mini rx := by
  cases x with
  | failed chain => exact h.fail fun _ => trivial
  | timedOut => exact h.fail fun _ => trivial
  | replied bytes =>
    simp only [Enlister.settle]
    cases hread : e.readReply bytes with
    | error err =>
      refine h.fail fun _ => ?_
      rcases Enlister.readReply_error hread with ⟨cause, rfl⟩ | ⟨cause, rfl⟩ <;> trivial
    | ok response =>
      have haccepted := h.respond response
      rcases hr : e.registry.onResponse response with ⟨_ | _, r⟩ <;> rw [hr] at haccepted <;>
        simp only [Enlister.accept, hr]
      · exact haccepted.fail fun _ => trivial
      · exact haccepted

end Registry.Reports

/-! ## Parts -/

/-- A part awaits an outcome that a request can have, or has ended with one. -/
structure Part.Reports (part : Part) (r : Registry) (future : FutureId) : Prop where
  awaits : ∀ rx, part.stage.receiver? = some rx → r.Reports future part.mini rx
  ended : ∀ outcome, part.stage = .ended outcome → OfRequest outcome

namespace Part.Reports

variable {part : Part} {r r' : Registry} {future : FutureId}

/-- A planned part awaits nothing yet. -/
theorem of_planned (h : part.stage = .planned) : part.Reports r future := by
  constructor
  · intro rx hrx
    rw [h] at hrx
    cases hrx
  · intro outcome houtcome
    cases h.symm.trans houtcome

/-- A part depends on the receivers of its requests alone. -/
theorem mono (h : part.Reports r future)
    (hreports : ∀ mini rx, r.Reports future mini rx → r'.Reports future mini rx) :
    part.Reports r' future :=
  ⟨fun rx hrx => hreports _ _ (h.awaits rx hrx), h.ended⟩

/-- A part whose request has been sent, or whose exchange has ended. -/
theorem awaiting {mini : MiniId} {node : NodeId} {rows : List IndexedRow} {stage : PartStage}
    {rx : Nat} (hstage : stage.receiver? = some rx) (h : r.Reports future mini rx) :
    Part.Reports ⟨mini, node, rows, stage⟩ r future := by
  constructor
  · intro rx' hrx'
    obtain rfl := Option.some.inj (hstage.symm.trans hrx')
    exact h
  · rintro outcome rfl
    cases hstage

/-- A part that has ended with an outcome of a request awaits nothing more. -/
theorem of_ended {mini : MiniId} {node : NodeId} {rows : List IndexedRow} {outcome : Delivery}
    (h : OfRequest outcome) : Part.Reports ⟨mini, node, rows, .ended outcome⟩ r future :=
  ⟨nofun, fun _ heq => PartStage.ended.inj heq ▸ h⟩

end Part.Reports

namespace Session

variable {s : Session σ}

/-- The parts of the round await outcomes that requests can have, or have ended with them. -/
structure Reporting (s : Session σ) : Prop where
  used : s.enlister.registry.Used
  parts : ∀ part ∈ s.call.phase.parts, part.Reports s.enlister.registry s.call.future

namespace Reporting

/-- A part goes on to another stage. -/
theorem setStage (h : s.Reporting) {topology : TopologyVersion} {parts : List Part} {index : Nat}
    {part : Part} {stage : PartStage} {r : Registry}
    (hphase : s.call.phase = .exchanging topology parts) (hpart : parts[index]? = some part)
    (hothers : ∀ mini rx, s.enlister.registry.Reports s.call.future mini rx →
      r.Reports s.call.future mini rx)
    (hnext : { part with stage }.Reports r s.call.future) :
    ∀ part ∈ (s.call.setStage index stage).phase.parts,
      part.Reports r (s.call.setStage index stage).future := by
  have hparts := h.parts
  rw [hphase] at hparts
  rw [Call.setStage_eq hphase hpart]
  intro other hother
  rcases List.mem_or_eq_of_mem_set hother with hother | rfl
  · exact (hparts other hother).mono hothers
  · exact hnext

/-- What an event of the call leaves of the round. -/
theorem event (h : s.Reporting) (now : Nat) (event : Event) :
    (s.move (.event now event)).Reporting := by
  refine ⟨h.used.trans (s.call.leads_step s.enlister now event), ?_⟩
  have heffect := s.call.step_effect s.enlister now event
  simp only [move]
  generalize s.call.step s.enlister now event = r at heffect ⊢
  cases heffect with
  | idle => exact h.parts
  | map hphase =>
    unfold Call.mapRound
    split
    · exact List.forall_mem_nil _
    · split
      · exact List.forall_mem_nil _
      · next hmap =>
        obtain ⟨-, -, hplanned, -⟩ := Enlister.mapRows_ok hmap
        exact fun part hpart => .of_planned (hplanned part hpart)
  | @send version parts index part hphase hpart hplanned =>
    unfold Call.sendPart
    dsimp only
    generalize s.call.request s.enlister version part _ = request
    obtain ⟨registry, nextMessageId, heq, htells, hresult⟩ :=
      s.enlister.dispatch_cases s.call.future part request h.used.sound
    have hothers : ∀ mini rx, s.enlister.registry.Reports s.call.future mini rx →
        registry.Reports s.call.future mini rx :=
      fun _ _ hrx => hrx.tells htells fun _ _ => False.elim
    have herror : ∀ err, (s.enlister.dispatch s.call.future part request).1 = .error err →
        err.OfRequest := fun _ => Enlister.dispatch_ofRequest
    generalize s.enlister.dispatch s.call.future part request = dispatched at heq hresult herror
    obtain ⟨result, enlister⟩ := dispatched
    obtain rfl : enlister = _ := heq
    rcases hresult with ⟨err, rfl, -⟩ | ⟨rx, payload, rfl, -, hreserves⟩
    · exact h.setStage hphase hpart hothers (.of_ended (.error (herror err rfl)))
    · exact h.setStage hphase hpart hothers (.awaiting rfl (hreserves.mono fun _ => False.elim))
  | @settle version parts index part rx sentAt limitMs x hphase hpart hsent =>
    have hparts := h.parts
    rw [hphase] at hparts
    have hsettled : ∀ mini rx, s.enlister.registry.Reports s.call.future mini rx →
        (s.enlister.settle (s.call.future, part.mini) limitMs x).registry.Reports s.call.future
          mini rx := fun _ _ hrx => hrx.settle _ limitMs x
    have hreports := (hparts part (List.mem_of_getElem? hpart)).awaits rx (by rw [hsent]; rfl)
    exact h.setStage hphase hpart hsettled (.awaiting rfl (hsettled _ _ hreports))
  | @collect version parts index part rx outcome e' hphase hpart hsettled hcollect =>
    have hparts := h.parts
    rw [hphase] at hparts
    have hreports := (hparts part (List.mem_of_getElem? hpart)).awaits rx (by rw [hsettled]; rfl)
    obtain ⟨rfl, houtcome⟩ := Enlister.collect_some hcollect
    refine h.setStage hphase hpart (fun _ _ hrx => hrx.quiet fun _ => tells_poll _ rx)
      (.of_ended ?_)
    rcases houtcome with hdelivered | rfl
    · exact hreports.delivered outcome hdelivered
    · exact .error trivial
  | close hphase ho =>
    unfold Call.closeRound
    dsimp only
    split
    · exact List.forall_mem_nil _
    · exact List.forall_mem_nil _
    · split <;> exact List.forall_mem_nil _
  | resume hphase _ => exact List.forall_mem_nil _
  | giveUp _ _ =>
    unfold Call.abandon
    split <;> exact List.forall_mem_nil _

/-- What others do tells no part what a request cannot have. -/
theorem beside (h : s.Reporting) {action : RegistryAction} (hpermits : s.permits action = true)
    (nextMini : MiniId) (nextMessageId : Int64) :
    Reporting { s with enlister :=
      { s.enlister with
        registry := s.enlister.registry.perform action, nextMini, nextMessageId } } := by
  refine ⟨h.used.trans (leads_perform _ action), fun part hpart => (h.parts part hpart).mono ?_⟩
  refine fun mini rx hrx => hrx.perform fun err hfail => ?_
  subst hfail
  simp [permits] at hpermits

/-- Every run leaves the parts awaiting outcomes that requests can have. -/
theorem run (h : s.Reporting) (moves : List Move) : (s.run moves).Reporting := by
  refine List.foldlRecOn (motive := Reporting) moves _ h fun s h m _ => ?_
  cases m with
  | event now event => exact h.event now event
  | beside action nextMini nextMessageId =>
    simp only [move]
    split
    · next hpermits => exact h.beside hpermits nextMini nextMessageId
    · exact h

end Reporting

end Session

end Enlistment
