import Enlistment.Proofs.Caller.Attendance

/-!
# Calls beside others

A call goes on beside others that use the same enlister. Its exchanges end with any octets
whatsoever, also with the response to another request, and the others may be answered with
responses to the requests of this call. At every time the requests that the registry holds for the
call are attended to by the parts of its round, so once the call has ended none of them is left.
-/

namespace Enlistment

open Registry

variable {σ : Type}

/-- A call and the enlister that it shares with others. -/
structure Session (σ : Type) where
  call : Call σ
  enlister : Enlister σ

/-- The parts of the round that a call is in. -/
def Phase.parts : Phase → List Part
  | exchanging _ parts => parts
  | _ => []

namespace Session

/-- Something that happens to a call and its enlister. -/
inductive Move where
  /-- An event of the call at a time. An exchange of the call ends in any way. -/
  | event (now : Nat) (event : Event)
  /-- Another call uses the enlister, or this call is cancelled. -/
  | beside (action : RegistryAction) (nextMini : MiniId) (nextMessageId : Int64)

/-- A call that starts at a time. -/
def start (e : Enlister σ) (future : FutureId) (tx : Transaction) (op : Operation)
    (rows : List Row) (options : EnlistOptions σ) (now : Nat) : Session σ where
  call := .start future tx op rows options now
  enlister := e

/-- Whether others do something: they hand in the responses that they are given, and they cancel
operations, but otherwise they keep to their own requests and receivers. -/
def permits (s : Session σ) : RegistryAction → Bool
  | .register key | .transition key _ | .fail key _ | .complete key => key.1 != s.call.future
  | .poll rx | .drop rx => s.call.phase.parts.all fun part => part.stage.receiver? != some rx
  | .respond _ | .cancel _ => true

/-- The call and its enlister after a move. What nobody does leaves them alone. -/
def move (s : Session σ) : Move → Session σ
  | .event now event =>
    let r := s.call.step s.enlister now event
    { call := r.2.1, enlister := r.2.2 }
  | .beside action nextMini nextMessageId =>
    if s.permits action then
      { s with enlister :=
        { s.enlister with
          registry := s.enlister.registry.perform action, nextMini, nextMessageId } }
    else s

/-- The call and its enlister after some moves, one after the other. -/
def run (s : Session σ) (moves : List Move) : Session σ := moves.foldl move s

end Session

/-! ## Requests of a call, phase by phase -/

/-- During a round the parts of a call attend to its requests, and otherwise a registry holds
none. -/
def Registry.AttendedIn (r : Registry) (future : FutureId) : Phase → Prop
  | .exchanging _ parts => r.Attended future parts
  | _ => r.Forgets future

/-- Parts that are planned attend to nothing. -/
theorem Registry.Forgets.planned {r : Registry} {future : FutureId} (h : r.Forgets future)
    {parts : List Part} (hplanned : ∀ part ∈ parts, part.stage = .planned) :
    r.Attended future parts := by
  have hnone : ∀ part ∈ parts, ∀ rx, part.stage.receiver? ≠ some rx := by
    intro part hpart rx hrx
    rw [hplanned part hpart] at hrx
    cases hrx
  refine ⟨⟨fun part hpart rx hrx => absurd hrx (hnone part hpart rx),
    fun i j part part' rx hi hj hrx _ => absurd hrx (hnone part (List.mem_of_getElem? hi) rx)⟩,
    fun part hpart rx hrx _ => absurd hrx (hnone part hpart rx), fun mini entry hentry => ?_⟩
  cases (h mini).symm.trans hentry

namespace Call

/-- Another stage of a part leaves a call the same. -/
theorem future_setStage (call : Call σ) (index : Nat) (stage : PartStage) :
    (call.setStage index stage).future = call.future := by
  unfold setStage
  split <;> rfl

/-- An event leaves a call what it is. -/
theorem future_step (call : Call σ) (e : Enlister σ) (now : Nat) (event : Event) :
    (call.step e now event).2.1.future = call.future := by
  have heffect := call.step_effect e now event
  generalize call.step e now event = r at heffect ⊢
  cases heffect with
  | idle | resume => rfl
  | map =>
    unfold mapRound
    split
    · rfl
    · split <;> rfl
  | send =>
    unfold sendPart
    dsimp only
    split <;> exact future_setStage ..
  | settle | collect => exact future_setStage ..
  | close =>
    unfold closeRound
    dsimp only
    split
    · rfl
    · rfl
    · split <;> rfl
  | giveUp =>
    unfold abandon
    split <;> rfl

end Call

namespace Session

/-- The requests of a call are attended to in a registry that has been used in any way. -/
structure Kept (s : Session σ) : Prop where
  used : s.enlister.registry.Used
  attended : s.enlister.registry.AttendedIn s.call.future s.call.phase

namespace Kept

variable {s : Session σ}

/-- The parts of a round attend to the requests of the call. -/
theorem of_exchanging (h : s.Kept) {topology : TopologyVersion} {parts : List Part}
    (hphase : s.call.phase = .exchanging topology parts) :
    s.enlister.registry.Attended s.call.future parts := by
  have hattended := h.attended
  rwa [hphase] at hattended

/-- Mapping the outstanding rows registers nothing yet. -/
theorem mapRound (h : s.Kept) (hphase : s.call.phase = .mapping) (seen : Readings) :
    (s.call.mapRound s.enlister seen).2.registry.AttendedIn
      (s.call.mapRound s.enlister seen).1.future (s.call.mapRound s.enlister seen).1.phase := by
  have hforgets : s.enlister.registry.Forgets s.call.future := by
    have hattended := h.attended
    rwa [hphase] at hattended
  unfold Call.mapRound
  split
  · exact hforgets
  · split
    · next err enlister hmap =>
      obtain rfl := Enlister.mapRows_error hmap
      exact hforgets
    · next parts enlister hmap =>
      obtain ⟨-, -, hplanned, nextMini, rfl⟩ := Enlister.mapRows_ok hmap
      exact hforgets.planned hplanned

/-- A part goes on to another stage. -/
theorem setStage {call : Call σ} {topology : TopologyVersion} {parts : List Part} {index : Nat}
    {part : Part} (hphase : call.phase = .exchanging topology parts)
    (hpart : parts[index]? = some part) {stage : PartStage} {r : Registry}
    (h : r.Attended call.future (parts.set index { part with stage })) :
    r.AttendedIn (call.setStage index stage).future (call.setStage index stage).phase := by
  rw [Call.setStage_eq hphase hpart]
  exact h

/-- At the end of a round no request of the call is left. -/
theorem closeRound (h : s.Kept) {topology : TopologyVersion} {parts : List Part}
    (hphase : s.call.phase = .exchanging topology parts) {o o' : RoundOutcome}
    (ho : Call.roundOutcome topology o' parts = some o) (now : Nat) :
    (s.call.closeRound s.enlister now topology parts o).2.registry.AttendedIn
      (s.call.closeRound s.enlister now topology parts o).1.future
      (s.call.closeRound s.enlister now topology parts o).1.phase := by
  have hended : ∀ part ∈ parts, part.stage.receiver? = none := by
    clear h hphase
    induction parts generalizing o' with
    | nil => exact List.forall_mem_nil _
    | cons part rest ih =>
      unfold Call.roundOutcome at ho
      split at ho
      · next outcome hstage => exact List.forall_mem_cons.mpr ⟨by rw [hstage]; rfl, ih ho⟩
      · cases ho
  have hforgets := (h.of_exchanging hphase).forgets hended topology
  unfold Call.closeRound
  dsimp only
  split
  · exact forgets_cancel _ _
  · exact hforgets
  · split
    · exact forgets_cancel _ _
    · exact hforgets

/-- Every event of the call keeps its requests attended to, whatever octets end an exchange. -/
theorem event (h : s.Kept) (now : Nat) (event : Event) : (s.move (.event now event)).Kept := by
  refine ⟨h.used.trans (s.call.leads_step s.enlister now event), ?_⟩
  have heffect := s.call.step_effect s.enlister now event
  simp only [move]
  generalize s.call.step s.enlister now event = r at heffect ⊢
  cases heffect with
  | idle => exact h.attended
  | map hphase => exact h.mapRound hphase _
  | @send version parts index part hphase hpart hplanned =>
    unfold Call.sendPart
    dsimp only
    generalize s.call.request s.enlister version part _ = request
    rcases (h.of_exchanging hphase).dispatch h.used hpart hplanned request with
      ⟨err, e', heq, hnext⟩ | ⟨rx, payload, e', heq, hnext⟩ <;> rw [heq]
    · exact setStage hphase hpart hnext
    · exact setStage hphase hpart (hnext _ _)
  | @settle version parts index part rx sentAt limitMs x hphase hpart hsent =>
    have hheld : part.stage.receiver? = some rx := by rw [hsent]; rfl
    have hsettled := (h.of_exchanging hphase).settle part.mini limitMs x
    exact setStage hphase hpart (hsettled.restage hpart hheld rfl)
  | @collect version parts index part rx outcome e' hphase hpart hsettled hcollect =>
    have hheld : part.stage.receiver? = some rx := by rw [hsettled]; rfl
    exact setStage hphase hpart ((h.of_exchanging hphase).collect hpart hheld hcollect)
  | close hphase ho => exact h.closeRound hphase ho now
  | resume hphase _ =>
    have hattended := h.attended
    rwa [hphase] at hattended
  | giveUp _ _ =>
    unfold Call.abandon
    split <;> exact forgets_cancel _ _

/-- What others do keeps the requests of the call attended to. -/
theorem beside (h : s.Kept) {action : RegistryAction} (hpermits : s.permits action = true)
    (nextMini : MiniId) (nextMessageId : Int64) :
    Kept { s with enlister :=
      { s.enlister with
        registry := s.enlister.registry.perform action, nextMini, nextMessageId } } := by
  refine ⟨h.used.trans (leads_perform _ action), ?_⟩
  have hattended := h.attended
  have hother : ∀ key, action.key? = some key → key.1 = s.call.future →
      ∃ response, action = .respond response := by
    intro key hkey hown
    cases action with
    | respond response => exact ⟨response, rfl⟩
    | register _ | transition _ _ | fail _ _ | complete _ =>
      cases hkey
      simp only [permits, bne_iff_ne, ne_eq] at hpermits
      exact absurd hown hpermits
    | cancel _ | poll _ | drop _ => cases hkey
  dsimp only
  cases hphase : s.call.phase with
  | exchanging topology parts =>
    have hround := h.of_exchanging hphase
    have hfree : ∀ rx, (action = .poll rx ∨ action = .drop rx) →
        ∀ part ∈ parts, part.stage.receiver? ≠ some rx := by
      intro rx haction part hpart
      have hall : (parts.all fun part => part.stage.receiver? != some rx) = true := by
        rcases haction with rfl | rfl <;> simpa only [permits, hphase, Phase.parts] using hpermits
      simpa using List.all_eq_true.mp hall part hpart
    cases hkey : action.key? with
    | some key =>
      by_cases hown : key.1 = s.call.future
      · obtain ⟨response, rfl⟩ := hother key hkey hown
        exact hround.onResponse response
      · exact hround.perform_other hkey hown
    | none =>
      cases action with
      | cancel future => exact hround.cancel h.used.nodup_keys future
      | poll rx => exact hround.perform_receiver (.inl rfl) (hfree rx (.inl rfl))
      | drop rx => exact hround.perform_receiver (.inr rfl) (hfree rx (.inr rfl))
      | register _ | transition _ _ | respond _ | fail _ _ | complete _ => cases hkey
  | mapping | remapping _ _ _ _ | ended _ =>
    rw [hphase] at hattended
    exact Forgets.perform hattended hother

/-- Every move keeps the requests of the call attended to. -/
theorem move (h : s.Kept) (m : Move) : (s.move m).Kept := by
  cases m with
  | event now event => exact h.event now event
  | beside action nextMini nextMessageId =>
    simp only [Session.move]
    split
    · next hpermits => exact h.beside hpermits nextMini nextMessageId
    · exact h

/-- Every run keeps the requests of the call attended to. -/
theorem run (h : s.Kept) (moves : List Move) : (s.run moves).Kept :=
  List.foldlRecOn (motive := Kept) moves _ h fun _ h m _ => h.move m

end Kept

/-- A move leaves the call what it is. -/
theorem future_move (s : Session σ) (m : Move) : (s.move m).call.future = s.call.future := by
  cases m with
  | event now event => exact s.call.future_step s.enlister now event
  | beside action nextMini nextMessageId =>
    simp only [move]
    split <;> rfl

/-- A run leaves the call what it is. -/
theorem future_run (s : Session σ) (moves : List Move) :
    (s.run moves).call.future = s.call.future :=
  List.foldlRecOn (motive := fun s' : Session σ => s'.call.future = s.call.future) moves _ rfl
    fun s' h m _ => (s'.future_move m).trans h

/-- A call that starts under a new number has no requests in the registry. -/
theorem kept_start {e : Enlister σ} (hused : e.registry.Used) {future : FutureId}
    (hnew : ∀ entry ∈ e.registry.inFlight, entry.1.1 ≠ future) (tx : Transaction) (op : Operation)
    (rows : List Row) (options : EnlistOptions σ) (now : Nat) :
    (start e future tx op rows options now).Kept := by
  refine ⟨hused, fun mini => find?_eq_none_iff.mpr fun hmem => ?_⟩
  obtain ⟨entry, hentry, heq⟩ := List.mem_map.mp hmem
  exact hnew entry hentry (congrArg Prod.fst heq)

/-- A registry does not leak. An enlister has been used in any way, and a call starts under a number
that no request in flight has, with any transaction, operation, rows and options. Whatever happens
from then on, and whatever octets its exchanges end with: once the call has ended, be it with a
result or with an error, the registry holds no request of the call. -/
theorem no_request_left {e : Enlister σ} (hused : e.registry.Used) {future : FutureId}
    (hnew : ∀ entry ∈ e.registry.inFlight, entry.1.1 ≠ future) (tx : Transaction) (op : Operation)
    (rows : List Row) (options : EnlistOptions σ) (now : Nat) {moves : List Move} {s : Session σ}
    (hs : (start e future tx op rows options now).run moves = s)
    {outcome : Except EnlistError EnlistResult} (hended : s.call.phase = .ended outcome) :
    ∀ entry ∈ s.enlister.registry.inFlight, entry.1.1 ≠ future := by
  have hkept := (kept_start hused hnew tx op rows options now).run moves
  have hfuture := (start e future tx op rows options now).future_run moves
  rw [hs] at hkept hfuture
  have hforgets : s.enlister.registry.Forgets s.call.future := by
    have hattended := hkept.attended
    rwa [hended] at hattended
  intro entry hentry heq
  refine find?_eq_none_iff.mp (hforgets entry.1.2) (List.mem_map.mpr ⟨entry, hentry, ?_⟩)
  rw [hfuture]
  exact Prod.ext heq rfl

/-- A node asks for a remap while another one accepts its rows, and in the second round the network
fails. Until then requests of the call have been in flight beside one of another call, which is the
only one left once the call has failed. -/
theorem no_request_left_after_remap :
    let view := fun major => { TopologyView.ofNodes [1, 2] 2 with version := ⟨major, 0⟩ }
    let loader : ClassLoader TopologyView := .ofRegistrations [] [] []
    let node : Node TopologyView := { id := 1, config := {}, loader, context := .ofCache 1 2 }
    let e : Enlister TopologyView := { id := 3, config := {}, loader, context := .ofCache 1 2 }
    let rows := [Row.entry (.int 2) (.int 10), Row.entry (.int 0) (.int 11)]
    let response : EnlistResponse := { base := { cacheId := 1 }, futureId := ⟨7⟩, mini := 1 }
    let reply := fun response => (node.encodeResponse response).toOption.getD []
    let moves : List Move := [.beside (.register (⟨8⟩, 1)) 1 1, .event 0 (.map (view 1).readings),
      .event 0 (.send 0), .event 0 (.send 1),
      .event 1 (.settle 0 (.replied (reply { response with remap := some ⟨2, 0⟩ }))),
      .event 1 (.settle 1 (.replied (reply { response with mini := 2 }))),
      .event 1 (.collect 0), .event 1 (.collect 1), .event 1 .close,
      .event 2 (.resume (view 2)), .event 2 (.map (view 2).readings), .event 2 (.send 0),
      .event 3 (.settle 0 (.failed ["connection lost"])), .event 3 (.collect 0), .event 3 .close]
    let s := fun n => (start e ⟨7⟩ { lock := ⟨1, 1, 1⟩ } .upsert rows {} 0).run (moves.take n)
    (s 4).enlister.registry.inFlight.map Prod.fst = [(⟨8⟩, 1), (⟨7⟩, 1), (⟨7⟩, 2)] ∧
      (s 12).enlister.registry.inFlight.map Prod.fst = [(⟨8⟩, 1), (⟨7⟩, 3)] ∧
      (s 15).call.phase = .ended (.error (.transport ["connection lost"])) ∧
      (s 15).enlister.registry.inFlight.length = 1 ∧
      ∀ entry ∈ (s 15).enlister.registry.inFlight, entry.1.1 ≠ ⟨7⟩ := by
  intro view loader node e rows response reply moves s
  have hused : e.registry.Used := .refl _
  have hnew : ∀ entry ∈ e.registry.inFlight, entry.1.1 ≠ ⟨7⟩ := nofun
  have hfailure : (s 15).call.phase.failure? = some (.transport ["connection lost"]) := by
    decide +kernel
  have hended := Phase.failure?_eq_some_iff.mp hfailure
  exact ⟨by decide +kernel, by decide +kernel, hended, by decide +kernel,
    no_request_left hused hnew { lock := ⟨1, 1, 1⟩ } .upsert rows {} 0 rfl hended⟩

end Session

end Enlistment
