import Enlistment.Proofs.Caller.Accounts
import Enlistment.Proofs.Caller.RegistryUse

/-!
# Requests that are attended to

The parts of a round share a registry with other calls. Each request of the call that the registry
holds is attended to by a part: it has been sent and the part waits for its outcome, or the part
has been told to be mapped again. And a part that waits has its request in the registry. Whatever
is said to a request of the call, by whichever response, keeps it so.
-/

namespace Enlistment

open Registry

/-! ## Attendance -/

/-- How a part attends to a request of its call that the registry holds. -/
inductive Part.Attends (r : Registry) (part : Part) (entry : MiniFuture) : Prop
  /-- The request has been sent, and the part waits for its outcome. -/
  | awaits {rx : Nat} (hrx : part.stage.receiver? = some rx) (hwaiter : entry.waiter = some rx)
      (hstate : entry.state = .sent) (hwaiting : r.receiver rx = .waiting)
  /-- The receiver of the part has been told that this is to be mapped again. -/
  | told {rx : Nat} {response : EnlistResponse} (hrx : part.stage.receiver? = some rx)
      (hwaiter : entry.waiter = none) (hstate : entry.state = .retryTopology)
      (hdelivered : r.receiver rx = .delivered (.ok response)) (hremap : response.remap.isSome)
  /-- The part has ended and is to be mapped again. -/
  | ended {response : EnlistResponse} (hstage : part.stage = .ended (.ok response))
      (hwaiter : entry.waiter = none) (hstate : entry.state = .retryTopology)
      (hremap : response.remap.isSome)

namespace Part.Attends

variable {r r' : Registry} {part : Part} {entry : MiniFuture}

/-- Only the receiver of the part counts. -/
theorem congr (h : part.Attends r entry)
    (hsame : ∀ rx, part.stage.receiver? = some rx → r'.receiver rx = r.receiver rx) :
    part.Attends r' entry := by
  cases h with
  | awaits hrx hwaiter hstate hwaiting =>
    exact .awaits hrx hwaiter hstate ((hsame _ hrx).trans hwaiting)
  | told hrx hwaiter hstate hdelivered hremap =>
    exact .told hrx hwaiter hstate ((hsame _ hrx).trans hdelivered) hremap
  | ended hstage hwaiter hstate hremap => exact .ended hstage hwaiter hstate hremap

/-- A request is waited for only after it has been sent, and by a receiver that waits. -/
theorem of_waiter (h : part.Attends r entry) {rx : Nat} (hwaiter : entry.waiter = some rx) :
    part.stage.receiver? = some rx ∧ entry.state = .sent ∧ r.receiver rx = .waiting := by
  cases h with
  | awaits hrx hwaiter' hstate hwaiting =>
    obtain rfl := Option.some.inj (hwaiter'.symm.trans hwaiter)
    exact ⟨hrx, hstate, hwaiting⟩
  | told _ hnone => cases hnone.symm.trans hwaiter
  | ended _ hnone => cases hnone.symm.trans hwaiter

/-- A request that has been sent is waited for. -/
theorem of_sent (h : part.Attends r entry) (hsent : entry.state = .sent) :
    ∃ rx, part.stage.receiver? = some rx ∧ entry.waiter = some rx ∧ r.receiver rx = .waiting := by
  cases h with
  | awaits hrx hwaiter _ hwaiting => exact ⟨_, hrx, hwaiter, hwaiting⟩
  | told _ _ hstate => cases hstate.symm.trans hsent
  | ended _ _ hstate => cases hstate.symm.trans hsent

/-- Nobody waits for a request that is to be mapped again. -/
theorem waiter_eq_none (h : part.Attends r entry) (hstate : entry.state = .retryTopology) :
    entry.waiter = none := by
  cases h with
  | awaits _ _ hsent => cases hsent.symm.trans hstate
  | told _ hwaiter => exact hwaiter
  | ended _ hwaiter => exact hwaiter

/-- A part that is planned attends to nothing. -/
theorem not_planned (h : part.Attends r entry) : part.stage ≠ .planned := by
  intro hplanned
  cases h with
  | awaits hrx => simp [hplanned, PartStage.receiver?] at hrx
  | told hrx => simp [hplanned, PartStage.receiver?] at hrx
  | ended hstage => simp [hplanned] at hstage

end Part.Attends

/-- The parts of a round wait at receivers of their own, each of which belongs to the request of the
part. -/
structure Registry.Hosts (r : Registry) (future : FutureId) (parts : List Part) : Prop where
  reserved : ∀ part ∈ parts, ∀ rx, part.stage.receiver? = some rx →
    r.Reserves (future, part.mini) rx fun _ => True
  distinct : ∀ (i j : Nat) (part part' : Part) (rx : Nat), parts[i]? = some part →
    parts[j]? = some part' → part.stage.receiver? = some rx →
    part'.stage.receiver? = some rx → i = j

/-- The parts of a round attend to all requests of their call that a registry holds, and each part
that waits has its request there. -/
structure Registry.Attended (r : Registry) (future : FutureId) (parts : List Part) : Prop
    extends r.Hosts future parts where
  served : ∀ part ∈ parts, ∀ rx, part.stage.receiver? = some rx → r.receiver rx = .waiting →
    ∃ entry, r.find? (future, part.mini) = some entry ∧ entry.state = .sent ∧
      entry.waiter = some rx
  attended : ∀ mini entry, r.find? (future, mini) = some entry →
    ∃ part ∈ parts, part.mini = mini ∧ part.Attends r entry

/-- A registry holds no request of an operation. -/
def Registry.Forgets (r : Registry) (future : FutureId) : Prop :=
  ∀ mini, r.find? (future, mini) = none

namespace Registry

variable {r r' : Registry} {future : FutureId} {parts : List Part} {key : RequestKey}
  {told : Delivery → Prop}

/-- Receivers belong to the requests of the parts, whatever is told to whom. -/
theorem Hosts.tells (h : r.Hosts future parts) (htells : Tells key told r r') :
    r'.Hosts future parts :=
  ⟨fun part hpart rx hheld => (h.reserved part hpart rx hheld).tells htells fun _ _ _ => trivial,
    h.distinct⟩

/-- A part goes on to another stage, in which it waits at a receiver of its own or at none. -/
theorem Hosts.set (h : r.Hosts future parts) {index : Nat} {part : Part} {stage : PartStage}
    (hown : ∀ rx, stage.receiver? = some rx → r.Reserves (future, part.mini) rx (fun _ => True) ∧
      ∀ (j : Nat) (other : Part), parts[j]? = some other → other.stage.receiver? = some rx →
        j = index) :
    r.Hosts future (parts.set index { part with stage }) := by
  have hcases : ∀ (i : Nat) (p : Part), (parts.set index { part with stage })[i]? = some p →
      (i = index ∧ p = { part with stage }) ∨ parts[i]? = some p := by
    intro i p hp
    rw [List.getElem?_set] at hp
    split at hp
    · next heq =>
      split at hp
      · exact .inl ⟨heq.symm, (Option.some.inj hp).symm⟩
      · cases hp
    · exact .inr hp
  refine ⟨fun p hp rx hrx => ?_, fun i j p p' rx hp hp' hrx hrx' => ?_⟩
  · rcases List.mem_or_eq_of_mem_set hp with hp | rfl
    · exact h.reserved p hp rx hrx
    · exact (hown rx hrx).1
  · rcases hcases i p hp with ⟨rfl, rfl⟩ | hold <;> rcases hcases j p' hp' with ⟨rfl, rfl⟩ | hold'
    · rfl
    · exact ((hown rx hrx).2 j p' hold' hrx').symm
    · exact (hown rx hrx').2 i p hold hrx
    · exact h.distinct i j p p' rx hold hold' hrx hrx'

namespace Attended

/-- What concerns neither the requests of a call nor the receivers of its parts leaves them
attended to. -/
theorem quiet (h : r.Attended future parts) (htells : Tells key told r r')
    (hfind : ∀ mini, r'.find? (future, mini) = r.find? (future, mini))
    (hrx : ∀ part ∈ parts, ∀ rx, part.stage.receiver? = some rx →
      r'.receiver rx = r.receiver rx) : r'.Attended future parts where
  toHosts := h.toHosts.tells htells
  served part hpart rx hheld hwaiting := by
    rw [hfind]
    exact h.served part hpart rx hheld (hrx part hpart rx hheld ▸ hwaiting)
  attended mini entry hentry := by
    rw [hfind] at hentry
    obtain ⟨part, hpart, hmini, hattends⟩ := h.attended mini entry hentry
    exact ⟨part, hpart, hmini, hattends.congr (hrx part hpart)⟩

/-- A request of the call is taken out of the registry or told to be mapped again, and the outcome
is sent to the receiver that waits for it. -/
theorem deliver (h : r.Attended future parts) (htells : Tells key told r r') {mini : MiniId}
    {entry : MiniFuture} (outcome : Delivery) (hentry : r.find? (future, mini) = some entry)
    (hothers : ∀ m, m ≠ mini → r'.find? (future, m) = r.find? (future, m))
    (hown : ∀ entry', r'.find? (future, mini) = some entry' → entry.state = .sent ∧
      entry'.state = .retryTopology ∧ entry'.waiter = none ∧
        ∃ response, outcome = .ok response ∧ response.remap.isSome)
    (hrest : ∀ rx, entry.waiter ≠ some rx → r'.receiver rx = r.receiver rx)
    (htold : ∀ rx, entry.waiter = some rx → r.receiver rx = .waiting →
      r'.receiver rx = .delivered outcome) : r'.Attended future parts where
  toHosts := h.toHosts.tells htells
  served part hpart rx hheld hwaiting := by
    by_cases hwaiter : entry.waiter = some rx
    · obtain ⟨_, _, _, hattends⟩ := h.attended mini entry hentry
      rw [htold rx hwaiter (hattends.of_waiter hwaiter).2.2] at hwaiting
      cases hwaiting
    · rw [hrest rx hwaiter] at hwaiting
      obtain ⟨entry', hentry', hstate, hwaiter'⟩ := h.served part hpart rx hheld hwaiting
      have hne : part.mini ≠ mini := by
        rintro rfl
        obtain rfl := Option.some.inj (hentry.symm.trans hentry')
        exact hwaiter hwaiter'
      exact ⟨entry', (hothers _ hne).trans hentry', hstate, hwaiter'⟩
  attended m entry' hentry' := by
    by_cases hm : m = mini
    · subst hm
      obtain ⟨hsent, hstate, hwaiter, response, rfl, hremap⟩ := hown entry' hentry'
      obtain ⟨part, hpart, hmini, hattends⟩ := h.attended m entry hentry
      obtain ⟨rx, hheld, hwaits, hwaiting⟩ := hattends.of_sent hsent
      exact ⟨part, hpart, hmini, .told hheld hwaiter hstate (htold rx hwaits hwaiting) hremap⟩
    · rw [hothers m hm] at hentry'
      obtain ⟨part, hpart, hmini, hattends⟩ := h.attended m entry' hentry'
      refine ⟨part, hpart, hmini, hattends.congr fun rx hheld => hrest rx fun hwaiter => ?_⟩
      -- the receiver of a part is the waiter of no other request
      have hkey := (h.reserved part hpart rx hheld).only _ ⟨entry, hentry, hwaiter⟩
      exact hm (hmini.symm.trans (congrArg Prod.snd hkey).symm)

/-! ## What is said to a request -/

/-- A response is handed in for a request of the call, whoever it came for. -/
theorem respond (h : r.Attended future parts) {response : EnlistResponse}
    (hfuture : response.futureId = future) : (r.onResponse response).2.Attended future parts := by
  have htells := r.tells_onResponse response
  rcases r.onResponse_cases response with heq | ⟨entry, r₁, hentry, hsent, hreceivers, hfound, heq⟩
  · rwa [heq]
  · rw [heq] at htells ⊢
    have hsame : ∀ rx, r₁.receiver rx = r.receiver rx := fun rx => by
      rw [receiver, receiver, hreceivers]
    subst hfuture
    refine h.deliver htells (.ok response) hentry (fun m hm => ?_)
      (fun entry' hentry' => ?_) (fun rx hwaiter => ?_) fun rx hwaiter hwaiting => ?_
    · rw [find?_deliver, hfound, if_neg fun heq => hm (congrArg Prod.snd heq)]
    · rw [find?_deliver, hfound, if_pos rfl] at hentry'
      split at hentry'
      · next hremap =>
        obtain rfl := Option.some.inj hentry'
        exact ⟨hsent, rfl, rfl, response, rfl, hremap⟩
      · cases hentry'
    · rw [receiver_deliver_of_ne hwaiter, hsame]
    · rw [hwaiter]
      exact receiver_deliver ((hsame rx).trans hwaiting) _

/-- A request of the call fails. -/
theorem fail (h : r.Attended future parts) (mini : MiniId) (e : EnlistError) :
    (r.onFailure (future, mini) e).2.Attended future parts := by
  have htells := r.tells_onFailure (future, mini) e
  unfold onFailure at htells ⊢
  split at htells
  · exact h
  · next entry hentry =>
    refine h.deliver htells (.error e) hentry (fun m hm => ?_) (fun entry' hentry' => ?_)
      (fun rx hwaiter => receiver_deliver_of_ne hwaiter) fun rx hwaiter hwaiting => ?_
    · rw [find?_deliver, find?_remove, if_neg fun heq => hm (congrArg Prod.snd heq)]
    · rw [find?_deliver, find?_remove, if_pos rfl] at hentry'
      cases hentry'
    · rw [hwaiter]
      exact receiver_deliver (r := r.remove (future, mini)) hwaiting _

/-- What is done about the requests of others leaves those of the call attended to. -/
theorem perform_other (h : r.Attended future parts) {action : RegistryAction}
    (hkey : action.key? = some key) (hother : key.1 ≠ future) :
    (r.perform action).Attended future parts := by
  obtain ⟨_, _, htells, -⟩ := r.tells_perform action
  refine h.quiet htells (fun mini => r.find?_perform (fun heq => ?_) fun heq => ?_)
    fun part hpart rx hheld => ?_
  · rw [hkey] at heq
    exact hother (congrArg Prod.fst (Option.some.inj heq))
  · rw [heq] at hkey
    cases hkey
  · have hreserved := h.reserved part hpart rx hheld
    exact receiver_perform hkey hreserved.lt fun hawaited =>
      hother (congrArg Prod.fst (hreserved.only _ hawaited))

/-- A response is handed in for any request. -/
theorem onResponse (h : r.Attended future parts) (response : EnlistResponse) :
    (r.onResponse response).2.Attended future parts := by
  by_cases hfuture : response.futureId = future
  · exact h.respond hfuture
  · exact show (r.perform (.respond response)).Attended future parts from
      h.perform_other rfl hfuture

/-- An operation is cancelled, be it the call itself. -/
theorem cancel (h : r.Attended future parts) (hkeys : r.keys.Nodup) (other : FutureId) :
    (r.cancel other).2.Attended future parts := by
  have htells : Tells (future, 0) (fun _ => False) r (r.cancel other).2 := r.tells_cancel other
  by_cases hother : other = future
  · subst hother
    refine ⟨h.toHosts.tells htells, fun part hpart rx hheld hwaiting => ?_,
      fun mini entry hentry => ?_⟩
    · have hlt := (h.reserved part hpart rx hheld).lt
      have hwaited : r.receiver rx = .waiting :=
        (r.leads_perform (.cancel other)).waiting hlt hwaiting
      obtain ⟨entry, hentry, -, hwaiter⟩ := h.served part hpart rx hheld hwaited
      exact absurd hwaiting (receiver_cancel_ne_waiting ⟨entry, hentry, hwaiter⟩)
    · rw [find?_cancel, if_pos rfl] at hentry
      cases hentry
  · refine h.quiet htells (fun mini => ?_) fun part hpart rx hheld => ?_
    · rw [find?_cancel, if_neg fun heq => hother heq.symm]
    · refine receiver_cancel hkeys fun mini hawaited => hother ?_
      exact congrArg Prod.fst ((h.reserved part hpart rx hheld).only _ hawaited)

/-- Others look at receivers or give them up that no part of the call waits at. -/
theorem perform_receiver (h : r.Attended future parts) {action : RegistryAction} {rx : Nat}
    (haction : action = .poll rx ∨ action = .drop rx)
    (hfree : ∀ part ∈ parts, part.stage.receiver? ≠ some rx) :
    (r.perform action).Attended future parts := by
  obtain ⟨_, _, htells, -⟩ := r.tells_perform action
  refine h.quiet htells (fun mini => r.find?_perform ?_ ?_) fun part hpart rx' hheld => ?_
  · rcases haction with rfl | rfl <;> exact nofun
  · rcases haction with rfl | rfl <;> exact nofun
  · have hne : rx ≠ rx' := fun heq => hfree part hpart (heq ▸ hheld)
    rcases haction with rfl | rfl
    · simp only [perform, poll]
      split
      · rw [receiver_set, if_neg fun heq => hne heq.1]
      · rfl
    · simp only [perform, drop]
      split
      · rfl
      · rw [receiver_set, if_neg fun heq => hne heq.1]

/-- However the exchange of a request of the call ends, its requests are attended to afterwards. -/
theorem settle {σ : Type} {e : Enlister σ} (h : e.registry.Attended future parts) (mini : MiniId)
    (limitMs : Nat) (x : Exchange) :
    (e.settle (future, mini) limitMs x).registry.Attended future parts := by
  cases x with
  | failed chain => exact h.fail mini _
  | timedOut => exact h.fail mini _
  | replied bytes =>
    simp only [Enlister.settle]
    split
    · exact h.fail mini _
    · next response _ =>
      have haccepted := h.onResponse response
      unfold Enlister.accept
      rcases hresponse : e.registry.onResponse response with ⟨_ | _, r'⟩ <;>
        rw [hresponse] at haccepted
      · exact haccepted.fail mini _
      · exact haccepted

/-! ## Parts at another stage -/

section

variable {index : Nat} {part : Part}

/-- A part that waits for its outcome goes on waiting at the same receiver. -/
theorem restage (h : r.Attended future parts) (hpart : parts[index]? = some part) {rx : Nat}
    (hheld : part.stage.receiver? = some rx) {stage : PartStage}
    (hstage : stage.receiver? = some rx) :
    r.Attended future (parts.set index { part with stage }) := by
  have hmem := List.mem_of_getElem? hpart
  refine ⟨h.toHosts.set fun rx' hrx' => ?_, fun other hother rx' hrx' hwaiting => ?_,
    fun mini entry hentry => ?_⟩
  · obtain rfl := Option.some.inj (hstage.symm.trans hrx')
    exact ⟨h.reserved part hmem rx hheld,
      fun j other hother hrx => h.distinct j index other part rx hother hpart hrx hheld⟩
  · rcases List.mem_or_eq_of_mem_set hother with hother | rfl
    · exact h.served other hother rx' hrx' hwaiting
    · obtain rfl := Option.some.inj (hstage.symm.trans hrx')
      exact h.served part hmem rx hheld hwaiting
  · obtain ⟨other, hother, hmini, hattends⟩ := h.attended mini entry hentry
    rcases mem_set_of_mem hpart hother { part with stage } with hother | rfl
    · exact ⟨other, hother, hmini, hattends⟩
    · refine ⟨_, List.mem_set (List.getElem?_eq_some_iff.mp hpart).1 _, hmini, ?_⟩
      cases hattends with
      | awaits hrx hwaiter hstate hwaiting =>
        exact .awaits (hstage.trans (hheld.symm.trans hrx)) hwaiter hstate hwaiting
      | told hrx hwaiter hstate hdelivered hremap =>
        exact .told (hstage.trans (hheld.symm.trans hrx)) hwaiter hstate hdelivered hremap
      | ended hended =>
        rw [hended] at hheld
        cases hheld

/-- A part takes its outcome from its receiver and ends. -/
theorem take (h : r.Attended future parts) (hpart : parts[index]? = some part) {rx : Nat}
    (hheld : part.stage.receiver? = some rx) (hready : r.receiver rx ≠ .waiting)
    (outcome : Delivery)
    (houtcome : ∀ told, r.receiver rx = .delivered told → outcome = told) :
    (r.poll rx).2.Attended future (parts.set index { part with stage := .ended outcome }) := by
  have hmem := List.mem_of_getElem? hpart
  have htells : Tells (future, 0) (fun _ => False) r (r.poll rx).2 := r.tells_poll rx
  have hfind : ∀ k, (r.poll rx).2.find? k = r.find? k := fun k =>
    show (r.perform (.poll rx)).find? k = r.find? k from r.find?_perform nofun nofun
  have hothers : ∀ rx', rx' ≠ rx → (r.poll rx).2.receiver rx' = r.receiver rx' := by
    intro rx' hne
    unfold poll
    split
    · rw [receiver_set, if_neg fun heq => hne heq.1.symm]
    · rfl
  have hwaits : ∀ rx', (r.poll rx).2.receiver rx' = .waiting →
      r.receiver rx' = .waiting ∧ rx' ≠ rx := by
    intro rx' hwaiting
    have hne : rx' ≠ rx := by
      rintro rfl
      have hmoves := (r.moves_perform (.poll rx') rx').resolve_right fun hnew =>
        absurd (h.reserved part hmem rx' hheld).lt (Nat.not_lt.mpr hnew.1)
      exact hmoves.ne_waiting hready hwaiting
    exact ⟨hothers rx' hne ▸ hwaiting, hne⟩
  refine ⟨(h.toHosts.tells htells).set fun rx' hrx' => (by cases hrx'),
    fun other hother rx' hrx' hwaiting => ?_, fun mini entry hentry => ?_⟩
  · rcases List.mem_or_eq_of_mem_set hother with hother | rfl
    · rw [hfind]
      exact h.served other hother rx' hrx' (hwaits rx' hwaiting).1
    · cases hrx'
  · rw [hfind] at hentry
    obtain ⟨other, hother, hmini, hattends⟩ := h.attended mini entry hentry
    obtain ⟨j, hj⟩ := List.getElem?_of_mem hother
    by_cases heq : index = j
    · subst heq
      obtain rfl := Option.some.inj (hpart.symm.trans hj)
      refine ⟨_, List.mem_set (List.getElem?_eq_some_iff.mp hpart).1 _, hmini, ?_⟩
      cases hattends with
      | awaits hrx _ _ hwaiting =>
        obtain rfl := Option.some.inj (hrx.symm.trans hheld)
        exact absurd hwaiting hready
      | told hrx hwaiter hstate hdelivered hremap =>
        obtain rfl := Option.some.inj (hrx.symm.trans hheld)
        exact .ended (by rw [houtcome _ hdelivered]) hwaiter hstate hremap
      | ended hended =>
        rw [hended] at hheld
        cases hheld
    · refine ⟨other, List.mem_of_getElem? (by rwa [List.getElem?_set_ne heq]), hmini,
        hattends.congr fun rx' hrx' => hothers rx' ?_⟩
      rintro rfl
      exact heq (h.distinct index j part other rx' hpart hj hheld hrx')

/-- A part whose outcome is collected ends with it. -/
theorem collect {σ : Type} {e e' : Enlister σ} (h : e.registry.Attended future parts)
    (hpart : parts[index]? = some part) {rx : Nat} (hheld : part.stage.receiver? = some rx)
    {outcome : Delivery} (hcollect : e.collect key rx = (some outcome, e')) :
    e'.registry.Attended future (parts.set index { part with stage := .ended outcome }) := by
  rw [Enlister.collect_eq] at hcollect
  obtain ⟨htaken, rfl⟩ := Prod.mk.inj hcollect
  refine h.take hpart hheld (fun hwaiting => ?_) outcome fun told hdelivered => ?_
  · rw [hwaiting] at htaken
    cases htaken
  · rw [hdelivered] at htaken
    exact (Option.some.inj htaken).symm

/-- A part that is planned leaves every request attended to as it goes on to another stage. -/
theorem mem_set_of_planned (h : r.Attended future parts) (hpart : parts[index]? = some part)
    (hplanned : part.stage = .planned) {mini : MiniId} {entry : MiniFuture}
    (hentry : r.find? (future, mini) = some entry) (part' : Part) :
    ∃ other ∈ parts.set index part', other ∈ parts ∧ other.mini = mini ∧ other.Attends r entry := by
  obtain ⟨other, hother, hmini, hattends⟩ := h.attended mini entry hentry
  rcases mem_set_of_mem hpart hother part' with hset | rfl
  · exact ⟨other, hset, hother, hmini, hattends⟩
  · exact absurd hplanned hattends.not_planned

/-- The registration of a part's request is refused. -/
theorem refuse (h : r.Attended future parts) (hpart : parts[index]? = some part)
    (hplanned : part.stage = .planned) {stage : PartStage} (hstage : stage.receiver? = none) :
    r.Attended future (parts.set index { part with stage }) := by
  refine ⟨h.toHosts.set fun rx hrx => ?_, fun other hother rx hrx hwaiting => ?_,
    fun mini entry hentry => ?_⟩
  · rw [hstage] at hrx
    cases hrx
  · rcases List.mem_or_eq_of_mem_set hother with hother | rfl
    · exact h.served other hother rx hrx hwaiting
    · rw [hstage] at hrx
      cases hrx
  · obtain ⟨other, hset, -, hmini, hattends⟩ := h.mem_set_of_planned hpart hplanned hentry _
    exact ⟨other, hset, hmini, hattends⟩

/-- The request of a part has been registered. It is sent, and the part waits for its outcome, or
it is forgotten again. -/
theorem launch (h : r.Attended future parts) (hpart : parts[index]? = some part)
    (hplanned : part.stage = .planned) (htells : Tells key told r r')
    (hfree : ∀ entry, r.find? (future, part.mini) = some entry → entry.state = .retryTopology)
    (hothers : ∀ m, m ≠ part.mini → r'.find? (future, m) = r.find? (future, m))
    (hrest : ∀ rx, rx < r.receivers.length → r'.receiver rx = r.receiver rx) {stage : PartStage}
    (hown : (stage.receiver? = none ∧ r'.find? (future, part.mini) = none) ∨
      ∃ rx entry, stage.receiver? = some rx ∧ r.receivers.length ≤ rx ∧
        r'.find? (future, part.mini) = some entry ∧ entry.state = .sent ∧ entry.waiter = some rx ∧
        r'.receiver rx = .waiting ∧ r'.Reserves (future, part.mini) rx fun _ => True) :
    r'.Attended future (parts.set index { part with stage }) := by
  have hold : ∀ other ∈ parts, ∀ rx, other.stage.receiver? = some rx →
      r'.receiver rx = r.receiver rx := fun other hother rx hrx =>
    hrest rx (h.reserved other hother rx hrx).lt
  refine ⟨(h.toHosts.tells htells).set fun rx hrx => ?_, fun other hother rx hrx hwaiting => ?_,
    fun mini entry hentry => ?_⟩
  · rcases hown with ⟨hnone, -⟩ | ⟨rx', entry, hstage, hnew, -, -, -, -, hreserves⟩
    · rw [hnone] at hrx
      cases hrx
    · obtain rfl := Option.some.inj (hstage.symm.trans hrx)
      refine ⟨hreserves, fun j other hother hrx' => ?_⟩
      have hlt := (h.reserved other (List.mem_of_getElem? hother) rx' hrx').lt
      omega
  · rcases List.mem_or_eq_of_mem_set hother with hother | rfl
    · rw [hold other hother rx hrx] at hwaiting
      obtain ⟨entry, hentry, hsent, hwaiter⟩ := h.served other hother rx hrx hwaiting
      have hne : other.mini ≠ part.mini := by
        intro heq
        rw [heq] at hentry
        cases hsent.symm.trans (hfree entry hentry)
      exact ⟨entry, (hothers _ hne).trans hentry, hsent, hwaiter⟩
    · rcases hown with ⟨hnone, -⟩ | ⟨rx', entry, hstage, -, hentry, hsent, hwaiter, -⟩
      · rw [hnone] at hrx
        cases hrx
      · obtain rfl := Option.some.inj (hstage.symm.trans hrx)
        exact ⟨entry, hentry, hsent, hwaiter⟩
  · by_cases hm : mini = part.mini
    · subst hm
      rcases hown with ⟨-, hnone⟩ | ⟨rx, entry', hstage, -, hentry', hsent, hwaiter, hwaiting, -⟩
      · cases hnone.symm.trans hentry
      · obtain rfl := Option.some.inj (hentry'.symm.trans hentry)
        exact ⟨_, List.mem_set (List.getElem?_eq_some_iff.mp hpart).1 _, rfl,
          .awaits hstage hwaiter hsent hwaiting⟩
    · rw [hothers mini hm] at hentry
      obtain ⟨other, hset, hother, hmini, hattends⟩ := h.mem_set_of_planned hpart hplanned hentry _
      exact ⟨other, hset, hmini, hattends.congr (hold other hother)⟩

/-- A request of the call that is registered gets a new receiver, while all others stay as they are.
Nobody has waited for it. -/
theorem register (h : r.Attended future parts) (mini : MiniId) :
    (∃ err, r.register (future, mini) = (.error err, r)) ∨
      ∃ (r' : Registry) (attempts : UInt32),
        r.register (future, mini) = (.ok r.receivers.length, r') ∧
        (∀ entry, r.find? (future, mini) = some entry → entry.state = .retryTopology) ∧
        r'.find? (future, mini) = some ⟨.created, some r.receivers.length, attempts⟩ ∧
        (∀ key, key ≠ (future, mini) → r'.find? key = r.find? key) ∧
        r'.receiver r.receivers.length = .waiting ∧
        ∀ rx, rx < r.receivers.length → r'.receiver rx = r.receiver rx := by
  rcases r.register_eq (future, mini) with herror | ⟨r', attempts, hr, hfree, hreceivers, hfind⟩
  · exact .inl herror
  · have hwaiter : (r.find? (future, mini)).bind MiniFuture.waiter = none := by
      rw [Option.bind_eq_none_iff]
      intro entry hentry
      obtain ⟨other, -, -, hattends⟩ := h.attended mini entry hentry
      exact hattends.waiter_eq_none (hfree entry hentry)
    rw [hwaiter] at hreceivers
    have hsteps := r.steps_register (future, mini)
    rw [hr] at hsteps
    refine .inr ⟨r', attempts, hr, hfree, hfind, hsteps.others, ?_, fun rx hlt => ?_⟩
    · rw [receiver, hreceivers]
      simp [close]
    · rw [receiver, hreceivers, receiver]
      simp [close, List.getElem?_append_left hlt]

/-- Dispatching the request of a part ends the part with an error, or lets it wait for the outcome
of the request. -/
theorem dispatch {σ : Type} {e : Enlister σ} (h : e.registry.Attended future parts)
    (hused : e.registry.Used) (hpart : parts[index]? = some part)
    (hplanned : part.stage = .planned) (request : Int64 → EnlistRequest σ) :
    (∃ err e', e.dispatch future part request = (.error err, e') ∧
      e'.registry.Attended future (parts.set index { part with stage := .ended (.error err) })) ∨
      ∃ rx payload e', e.dispatch future part request = (.ok (rx, payload), e') ∧
        ∀ now limitMs, e'.registry.Attended future
          (parts.set index { part with stage := .sent rx now limitMs }) := by
  have hregister : Tells (future, part.mini) (fun _ => False) e.registry _ :=
    e.registry.tells_register (future, part.mini)
  rcases h.register part.mini with
    ⟨err, hr⟩ | ⟨r₁, attempts, hr, hfree, hfind, hothers, hnew, hsame⟩
  · exact .inl ⟨err, e, by simp only [Enlister.dispatch, hr], h.refuse hpart hplanned rfl⟩
  · have hreserves := reserves_register hused.sound hr
    rw [hr] at hregister
    have hencoded : ∀ err, e.encodeRequest part (request e.nextMessageId) = .error err →
        err.IsOwn := fun _ => Enlister.encodeRequest_error
    obtain ⟨hlaunch, -⟩ :=
      Enlister.launch_cases r₁ (future, part.mini) e.registry.receivers.length hencoded
    have hne : ∀ m, m ≠ part.mini → (future, m) ≠ (future, part.mini) :=
      fun m hm heq => hm (congrArg Prod.snd heq)
    rcases launch_eq hfind (e.encodeRequest part (request e.nextMessageId)) with
      ⟨err, r₂, heq, hnone, hothers', hrest⟩ | ⟨payload, r₂, heq, hsent, hothers', hreceivers⟩ <;>
      rw [heq] at hlaunch
    · refine .inl ⟨err, { e with registry := r₂, nextMessageId := e.nextMessageId + 1 },
        by simp only [Enlister.dispatch, hr, heq], ?_⟩
      exact h.launch hpart hplanned (hregister.trans hlaunch) hfree
        (fun m hm => (hothers' _ (hne m hm)).trans (hothers _ (hne m hm)))
        (fun rx hlt => (hrest rx (Nat.ne_of_lt hlt)).trans (hsame rx hlt)) (.inl ⟨rfl, hnone⟩)
    · have hrest : ∀ rx, r₂.receiver rx = r₁.receiver rx := fun rx => by
        rw [receiver, hreceivers, receiver]
      have hreserves' : r₂.Reserves (future, part.mini) e.registry.receivers.length fun _ => True :=
        (hreserves.tells hlaunch fun _ _ => id).mono fun _ => False.elim
      refine .inr ⟨e.registry.receivers.length, payload,
        { e with registry := r₂, nextMessageId := e.nextMessageId + 1 },
        by simp only [Enlister.dispatch, hr, heq], fun now limitMs => ?_⟩
      exact h.launch hpart hplanned (hregister.trans hlaunch) hfree
        (fun m hm => (hothers' _ (hne m hm)).trans (hothers _ (hne m hm)))
        (fun rx hlt => (hrest rx).trans (hsame rx hlt))
        (.inr ⟨_, _, rfl, Nat.le_refl _, hsent, rfl, rfl, (hrest _).trans hnew, hreserves'⟩)

end

end Attended

/-! ## The end of a round -/

/-- A request that is completed is forgotten, and no other one is. -/
theorem find?_complete (r : Registry) (key k : RequestKey) :
    (r.complete key).find? k = if k = key then none else r.find? k := by
  unfold complete
  split
  · next hnone =>
    split
    · next heq => rw [heq, hnone]
    · rfl
  · rw [find?_close, find?_remove]

/-- Forgetting the requests that are to be mapped again brings none back. -/
theorem find?_completeRemapped_of_none {topology : TopologyVersion} {parts : List Part}
    {k : RequestKey} (h : r.find? k = none) :
    (Call.completeRemapped future topology r parts).find? k = none := by
  induction parts generalizing r with
  | nil => exact h
  | cons part rest ih =>
    refine ih ?_
    split
    · split
      · rw [find?_complete, h, ite_self]
      · exact h
    · exact h

/-- The request of a part that is to be mapped again is forgotten. -/
theorem find?_completeRemapped {topology : TopologyVersion} {parts : List Part} {part : Part}
    (hpart : part ∈ parts) {response : EnlistResponse} (hstage : part.stage = .ended (.ok response))
    (hremap : response.remap.isSome) :
    (Call.completeRemapped future topology r parts).find? (future, part.mini) = none := by
  obtain ⟨current, hcurrent⟩ := Option.isSome_iff_exists.mp hremap
  have hmismatch : (Except.ok response : Delivery).bind (fun response =>
      response.toResult topology) = .error (.topologyMismatch topology current) := by
    simp [Except.bind, EnlistResponse.toResult, hcurrent]
  induction parts generalizing r with
  | nil => cases hpart
  | cons first rest ih =>
    unfold Call.completeRemapped
    rcases List.mem_cons.mp hpart with rfl | hrest
    · rw [hstage]
      dsimp only
      rw [hmismatch]
      dsimp only
      exact find?_completeRemapped_of_none (by rw [find?_complete, if_pos rfl])
    · exact ih hrest

/-- Once all parts of a round have ended, the requests that are left are those to be mapped again,
and these are forgotten. -/
theorem Attended.forgets (h : r.Attended future parts)
    (hended : ∀ part ∈ parts, part.stage.receiver? = none) (topology : TopologyVersion) :
    (Call.completeRemapped future topology r parts).Forgets future := by
  intro mini
  cases hentry : r.find? (future, mini) with
  | none => exact find?_completeRemapped_of_none hentry
  | some entry =>
    obtain ⟨part, hpart, rfl, hattends⟩ := h.attended mini entry hentry
    have hnone := hended part hpart
    cases hattends with
    | awaits hrx => cases hnone.symm.trans hrx
    | told hrx => cases hnone.symm.trans hrx
    | ended hstage _ _ hremap => exact find?_completeRemapped hpart hstage hremap

/-- An operation that is cancelled is forgotten. -/
theorem forgets_cancel (r : Registry) (future : FutureId) : (r.cancel future).2.Forgets future :=
  fun mini => by rw [find?_cancel, if_pos rfl]

/-- What is done about the requests of others does not bring those of an operation back, nor does
anything that is said to them. -/
theorem Forgets.perform (h : r.Forgets future) {action : RegistryAction}
    (hown : ∀ key, action.key? = some key → key.1 = future →
      ∃ response, action = .respond response) : (r.perform action).Forgets future := by
  intro mini
  by_cases hkey : action.key? = some (future, mini)
  · obtain ⟨response, rfl⟩ := hown _ hkey rfl
    rcases r.onResponse_cases response with heq | ⟨entry, _, hentry, -⟩
    · rw [Registry.perform, heq]
      exact h mini
    · obtain ⟨rfl, rfl⟩ := Prod.mk.inj (Option.some.inj hkey)
      cases (h response.mini).symm.trans hentry
  · by_cases hcancel : action = .cancel future
    · subst hcancel
      exact r.forgets_cancel future mini
    · rw [r.find?_perform hkey hcancel]
      exact h mini

end Registry

end Enlistment
