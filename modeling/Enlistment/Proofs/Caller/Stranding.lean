import Enlistment.Node
import Enlistment.Proofs.Caller.Sessions
import Mathlib.Data.List.Induction

/-!
# Parts that wait for nothing

When the exchange of a request ends, the part of the request is told so. A response is taken to be
one to the request that it names, and only if nobody waits for this one the request that was sent
fails. So a response that names another request in flight tells the part of the other one, and the
part whose exchange has ended waits on. Nothing else leaves a part waiting.
-/

namespace Enlistment

open Registry

variable {σ : Type}

/-! ## The end of an exchange -/

/-- A request for which somebody waits fails, and the receiver is told so. -/
theorem Registry.receiver_onFailure {r : Registry} {key : RequestKey} {entry : MiniFuture}
    {rx : Nat} (hentry : r.find? key = some entry) (hwaiter : entry.waiter = some rx)
    (hwaiting : r.receiver rx = .waiting) (err : EnlistError) :
    (r.onFailure key err).2.receiver rx = .delivered (.error err) := by
  simp only [onFailure, hentry, hwaiter]
  exact receiver_deliver (r := r.remove key) hwaiting _

/-- A receiver that still waits after the exchange of its request has ended was passed over by a
response to another request in flight. -/
theorem Enlister.misdirected_of_waiting {e : Enlister σ} {key : RequestKey} {entry : MiniFuture}
    {rx : Nat} (hentry : e.registry.find? key = some entry) (hwaiter : entry.waiter = some rx)
    (hwaiting : e.registry.receiver rx = .waiting) {limitMs : Nat} {x : Exchange}
    (hafter : (e.settle key limitMs x).registry.receiver rx = .waiting) :
    ∃ bytes response, x = .replied bytes ∧ e.readReply bytes = .ok response ∧
      (response.futureId, response.mini) ≠ key ∧
      e.registry.state? (response.futureId, response.mini) = some .sent := by
  have hfails : ∀ err, (e.registry.onFailure key err).2.receiver rx ≠ .waiting := by
    intro err
    rw [receiver_onFailure hentry hwaiter hwaiting]
    exact nofun
  cases x with
  | failed chain => exact absurd hafter (hfails _)
  | timedOut => exact absurd hafter (hfails _)
  | replied bytes =>
    simp only [settle] at hafter
    cases hread : e.readReply bytes with
    | error err =>
      rw [hread] at hafter
      exact absurd hafter (hfails err)
    | ok response =>
      simp only [hread, accept] at hafter
      rcases e.registry.onResponse_cases response with
        heq | ⟨entry', r', hentry', hsent, hreceivers, -, heq⟩ <;> rw [heq] at hafter
      · exact absurd hafter (hfails _)
      · refine ⟨bytes, response, rfl, hread, fun hkey => ?_, by rw [state?, hentry', ← hsent]; rfl⟩
        -- the response to the request itself would have been delivered
        rw [hkey] at hentry'
        obtain rfl := Option.some.inj (hentry.symm.trans hentry')
        have hwaits : r'.receiver rx = .waiting := by rw [receiver, hreceivers]; exact hwaiting
        have htrue := (r'.deliver_true_iff entry.waiter (.ok response)).mpr ⟨rx, hwaiter, hwaits⟩
        have htold := receiver_deliver hwaits (.ok response)
        rw [← hwaiter] at htold
        rcases hr : r'.deliver entry.waiter (.ok response) with ⟨_ | _, r''⟩ <;>
          rw [hr] at htrue htold hafter
        · cases htrue
        · cases htold.symm.trans hafter

/-! ## Parts that are settled -/

/-- Only a phase that exchanges has parts. -/
theorem Phase.exchanging_of_parts {phase : Phase} {index : Nat} {part : Part}
    (h : phase.parts[index]? = some part) :
    ∃ topology, phase = .exchanging topology phase.parts := by
  cases phase with
  | exchanging topology parts => exact ⟨topology, rfl⟩
  | mapping | remapping _ _ _ _ | ended _ => cases h

namespace Call

variable {call : Call σ} {e : Enlister σ} {index : Nat} {part : Part}

/-- A part is as before or has got its new stage. -/
theorem getElem?_parts_setStage {i : Nat} {stage : PartStage}
    (h : (call.setStage i stage).phase.parts[index]? = some part) :
    call.phase.parts[index]? = some part ∨
      (i = index ∧ ∃ old, call.phase.parts[index]? = some old ∧ part = { old with stage }) := by
  unfold setStage at h
  split at h
  · next topology parts hphase =>
    rw [hphase]
    simp only [Phase.parts, List.getElem?_modify] at h ⊢
    split at h
    · next heq =>
      obtain ⟨old, hold, hpart⟩ := Option.map_eq_some_iff.mp h
      exact .inr ⟨heq, old, hold, hpart.symm⟩
    · exact .inl (Option.map_id_apply.symm.trans h)
  · exact .inl h

/-- A part whose exchange has ended was so before an event, or its exchange ends with the event. -/
theorem settled_step {now : Nat} {event : Event} {rx : Nat}
    (hpart : (call.step e now event).2.1.phase.parts[index]? = some part)
    (hstage : part.stage = .settled rx) :
    call.phase.parts[index]? = some part ∨
      ∃ old sentAt limitMs x, event = .settle index x ∧ call.phase.parts[index]? = some old ∧
        old.mini = part.mini ∧ old.stage = .sent rx sentAt limitMs ∧
        (call.step e now event).2.2 = e.settle (call.future, old.mini) limitMs x := by
  -- a part that is given another stage than a settled one is not the part in question
  have hother : ∀ (i : Nat) (stage : PartStage), (∀ rx, stage ≠ .settled rx) →
      (call.setStage i stage).phase.parts[index]? = some part →
      call.phase.parts[index]? = some part := by
    intro i stage hne h
    refine (getElem?_parts_setStage h).resolve_right fun ⟨_, old, _, heq⟩ => ?_
    exact hne rx (by rw [← hstage, heq])
  have heffect := call.step_effect e now event
  generalize call.step e now event = r at heffect hpart ⊢
  cases heffect with
  | idle => exact .inl hpart
  | map =>
    simp only [mapRound] at hpart
    split at hpart
    · cases hpart
    · split at hpart
      · cases hpart
      · next parts enlister hmap =>
        obtain ⟨-, -, hplanned, -⟩ := Enlister.mapRows_ok hmap
        cases (hplanned part (List.mem_of_getElem? hpart)).symm.trans hstage
  | send =>
    simp only [sendPart] at hpart
    split at hpart
    · exact .inl (hother _ _ (fun _ => PartStage.noConfusion) hpart)
    · exact .inl (hother _ _ (fun _ => PartStage.noConfusion) hpart)
  | @settle version parts i settled rx' sentAt limitMs x hphase hsettled hsent =>
    rcases getElem?_parts_setStage hpart with hold | ⟨rfl, old, hold, rfl⟩
    · exact .inl hold
    · obtain rfl := PartStage.settled.inj hstage
      rw [hphase] at hold ⊢
      obtain rfl := Option.some.inj (hsettled.symm.trans hold)
      exact .inr ⟨settled, sentAt, limitMs, x, rfl, hold, rfl, hsent, rfl⟩
  | collect => exact .inl (hother _ _ (fun _ => PartStage.noConfusion) hpart)
  | close =>
    simp only [closeRound] at hpart
    split at hpart
    · cases hpart
    · cases hpart
    · split at hpart <;> cases hpart
  | resume => cases hpart
  | giveUp =>
    simp only [abandon] at hpart
    split at hpart <;> cases hpart

end Call

/-! ## Stranded parts -/

namespace Session

/-- The exchange of the part at a position has ended, but its request still counts as sent and its
receiver has been told nothing. -/
def stranded (s : Session σ) (index : Nat) : Bool :=
  (s.call.phase.parts[index]?).any fun part =>
    match part.stage with
    | .settled rx =>
      s.enlister.registry.state? (s.call.future, part.mini) == some .sent &&
        !(s.enlister.registry.receiver rx).isReady
    | _ => false

/-- Some octets are about to end the exchange of the part at a position, but they are the response
to another request, which has been sent and not yet been answered. -/
def Misdirects (s : Session σ) (index : Nat) (bytes : Bytes) : Prop :=
  ∃ (part : Part) (rx sentAt limitMs : Nat) (response : EnlistResponse),
    s.call.phase.parts[index]? = some part ∧ part.stage = .sent rx sentAt limitMs ∧
      s.enlister.readReply bytes = .ok response ∧
      (response.futureId, response.mini) ≠ (s.call.future, part.mini) ∧
      s.enlister.registry.state? (response.futureId, response.mini) = some .sent

/-- What it takes for a part to be stranded: its exchange is over, and its request still waits. -/
theorem stranded_iff {s : Session σ} {index : Nat} : s.stranded index = true ↔
    ∃ part rx, s.call.phase.parts[index]? = some part ∧ part.stage = .settled rx ∧
      s.enlister.registry.state? (s.call.future, part.mini) = some .sent ∧
      s.enlister.registry.receiver rx = .waiting := by
  have hready : ∀ receiver : Receiver, receiver.isReady = false ↔ receiver = .waiting := by
    rintro (_ | _ | _ | _) <;> simp [Receiver.isReady]
  unfold stranded
  cases s.call.phase.parts[index]? with
  | none => simp
  | some part => cases hstage : part.stage <;> simp [hstage, hready]

/-- A part whose exchange has ended and whose receiver waits is stranded. -/
theorem Kept.stranded {s : Session σ} (h : s.Kept) {index : Nat} {part : Part} {rx : Nat}
    (hpart : s.call.phase.parts[index]? = some part) (hstage : part.stage = .settled rx)
    (hwaiting : s.enlister.registry.receiver rx = .waiting) : s.stranded index = true := by
  obtain ⟨topology, hphase⟩ := Phase.exchanging_of_parts hpart
  have hheld : part.stage.receiver? = some rx := by rw [hstage]; rfl
  obtain ⟨entry, hentry, hsent, -⟩ :=
    (h.of_exchanging hphase).served part (List.mem_of_getElem? hpart) rx hheld hwaiting
  refine stranded_iff.mpr ⟨part, rx, hpart, hstage, ?_, hwaiting⟩
  rw [state?, hentry, ← hsent]
  rfl

/-- A part that is stranded after a move was so before, or the move ends its exchange with the
response to another request. -/
theorem Kept.stranded_move {s : Session σ} (h : s.Kept) {m : Move} {index : Nat}
    (hstranded : (s.move m).stranded index = true) :
    s.stranded index = true ∨
      ∃ now bytes, m = .event now (.settle index (.replied bytes)) ∧ s.Misdirects index bytes := by
  obtain ⟨part, rx, hpart, hstage, -, hwaiting⟩ := stranded_iff.mp hstranded
  have hlt : ∀ old : Part, s.call.phase.parts[index]? = some old →
      old.stage.receiver? = some rx → rx < s.enlister.registry.receivers.length := by
    intro old hold hheld
    obtain ⟨topology, hphase⟩ := Phase.exchanging_of_parts hold
    exact ((h.of_exchanging hphase).reserved old (List.mem_of_getElem? hold) rx hheld).lt
  cases m with
  | event now event =>
    have hleads := s.call.leads_step s.enlister now event
    rcases Call.settled_step hpart hstage with
      hold | ⟨old, sentAt, limitMs, x, rfl, hold, hmini, hsent, heq⟩
    · have hheld : part.stage.receiver? = some rx := by rw [hstage]; rfl
      exact .inl (h.stranded hold hstage (hleads.waiting (hlt part hold hheld) hwaiting))
    · have hheld : old.stage.receiver? = some rx := by rw [hsent]; rfl
      have hbefore := hleads.waiting (hlt old hold hheld) hwaiting
      obtain ⟨topology, hphase⟩ := Phase.exchanging_of_parts hold
      obtain ⟨entry, hentry, -, hwaiter⟩ :=
        (h.of_exchanging hphase).served old (List.mem_of_getElem? hold) rx hheld hbefore
      simp only [Session.move, heq] at hwaiting
      obtain ⟨bytes, response, rfl, hread, hkey, hstate⟩ :=
        Enlister.misdirected_of_waiting hentry hwaiter hbefore hwaiting
      exact .inr ⟨now, bytes, rfl, old, rx, sentAt, limitMs, response, hold, hsent, hread, hkey,
        hstate⟩
  | beside action nextMini nextMessageId =>
    simp only [Session.move] at hpart hwaiting
    split at hpart
    · next hpermits =>
      rw [if_pos hpermits] at hwaiting
      have hheld : part.stage.receiver? = some rx := by rw [hstage]; rfl
      exact .inl (h.stranded hpart hstage
        ((leads_perform _ action).waiting (hlt part hpart hheld) hwaiting))
    · next hpermits =>
      rw [if_neg hpermits] at hwaiting
      exact .inl (h.stranded hpart hstage hwaiting)

/-- Only a misdirected response leaves a part waiting. An enlister has been used in any way, and a
call starts under a number that no request in flight has. Whatever happens from then on, and
whatever octets its exchanges end with: if the exchange of a part has ended while its request still
counts as sent and its receiver has been told nothing, then the exchange ended with the response to
another request, which had been sent and not been answered at that time. -/
theorem misdirected_of_stranded {e : Enlister σ} (hused : e.registry.Used) {future : FutureId}
    (hnew : ∀ entry ∈ e.registry.inFlight, entry.1.1 ≠ future) (tx : Transaction) (op : Operation)
    (rows : List Row) (options : EnlistOptions σ) (now : Nat) {moves : List Move} {index : Nat}
    (hstranded : ((start e future tx op rows options now).run moves).stranded index = true) :
    ∃ earlier time bytes later,
      moves = earlier ++ .event time (.settle index (.replied bytes)) :: later ∧
        ((start e future tx op rows options now).run earlier).Misdirects index bytes := by
  have hstart := kept_start hused hnew tx op rows options now
  induction moves using List.reverseRecOn with
  | nil => cases hstranded
  | append_singleton moves m ih =>
    rw [run, List.foldl_concat, ← run] at hstranded
    rcases (hstart.run moves).stranded_move hstranded with
      hbefore | ⟨time, bytes, rfl, hmisdirects⟩
    · obtain ⟨earlier, time, bytes, later, rfl, hmisdirects⟩ := ih hbefore
      exact ⟨earlier, time, bytes, later ++ [m], by simp, hmisdirects⟩
    · exact ⟨moves, time, bytes, [], rfl, hmisdirects⟩

/-- The exchange of the first of two requests ends with the response to the second one. The first
part is stranded, so there was such a response. -/
theorem misdirected_of_two_requests :
    let view := TopologyView.ofNodes [1, 2] 2
    let loader : ClassLoader TopologyView := .ofRegistrations [] [] []
    let node : Node TopologyView := { id := 1, config := {}, loader, context := .ofCache 1 2 }
    let e : Enlister TopologyView := { id := 3, config := {}, loader, context := .ofCache 1 2 }
    let rows := [Row.entry (.int 2) (.int 10), Row.entry (.int 0) (.int 11)]
    let response : EnlistResponse := { base := { cacheId := 1 }, futureId := ⟨7⟩, mini := 2 }
    let reply := (node.encodeResponse response).toOption.getD []
    let moves : List Move := [.event 0 (.map view.readings), .event 0 (.send 0), .event 0 (.send 1),
      .event 1 (.settle 0 (.replied reply))]
    let s := start e ⟨7⟩ { lock := ⟨1, 1, 1⟩ } .upsert rows {} 0
    (s.run moves).stranded 0 = true ∧ ∃ earlier time bytes later,
      moves = earlier ++ .event time (.settle 0 (.replied bytes)) :: later ∧
        (s.run earlier).Misdirects 0 bytes := by
  intro view loader node e rows response reply moves s
  have hstranded : (s.run moves).stranded 0 = true := by decide +kernel
  have hnew : ∀ entry ∈ e.registry.inFlight, entry.1.1 ≠ ⟨7⟩ := nofun
  have hused : e.registry.Used := .refl _
  exact ⟨hstranded, misdirected_of_stranded hused hnew { lock := ⟨1, 1, 1⟩ } .upsert rows {} 0
    hstranded⟩

/-- Two requests of a call are in flight, and the exchange of the first one ends with the response
to the second one, which is handed to the second part. When the exchange of the second one has
ended as well, the first part still waits, its request still counts as sent, and the round cannot
be put together. -/
theorem misdirected_response_strands_part :
    let view := TopologyView.ofNodes [1, 2] 2
    let loader : ClassLoader TopologyView := .ofRegistrations [] [] []
    let node : Node TopologyView := { id := 1, config := {}, loader, context := .ofCache 1 2 }
    let e : Enlister TopologyView := { id := 3, config := {}, loader, context := .ofCache 1 2 }
    let rows := [Row.entry (.int 2) (.int 10), Row.entry (.int 0) (.int 11)]
    let response : EnlistResponse := { base := { cacheId := 1 }, futureId := ⟨7⟩, mini := 2 }
    let reply := (node.encodeResponse response).toOption.getD []
    let s := (start e ⟨7⟩ { lock := ⟨1, 1, 1⟩ } .upsert rows {} 0).run
      [.event 0 (.map view.readings), .event 0 (.send 0), .event 0 (.send 1),
        .event 1 (.settle 0 (.replied reply)), .event 2 (.settle 1 .timedOut),
        .event 2 (.collect 0), .event 2 (.collect 1), .event 2 .close]
    s.stranded 0 = true ∧
      s.enlister.registry.inFlight.map (fun entry => (entry.1, entry.2.state)) =
        [((⟨7⟩, 1), .sent)] ∧
      s.call.phase.parts.map (fun part => part.stage.receiver?) = [some 0, none] := by
  decide +kernel

end Session

end Enlistment
