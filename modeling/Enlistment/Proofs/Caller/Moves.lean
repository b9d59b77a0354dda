import Enlistment.Proofs.Caller.Accounts

/-!
# Moves and accounts

Every move of a network keeps the account of the call: each event of the call, in the phase in which
it can happen, a request that reaches its node, and what others do beside the call.
-/

namespace Enlistment

open Registry

variable {σ : Type} [HasTopology σ]

section

variable {e : Enlister σ} {c : Call σ} {rows : List IndexedRow} {s : Network σ}
  {parts : List Part} {past : List (Letter σ)} {slots : List (Slot σ)} {i : Nat} {l : Letter σ}

/-! ## Requests of a round -/

/-- A round starts without requests. -/
theorem Round.planned (htallied : Tallied e c rows s.letters (parts.flatMap Part.rows)
      s.call.result.previous) (hearlier : ∀ l ∈ s.letters, l.round < s.round)
    (hminis : (parts.map Part.mini).Nodup) (hplanned : ∀ part ∈ parts, part.stage = .planned) :
    Round e c rows s parts s.letters (parts.map fun part => (part, none)) := by
  refine ⟨?_, ?_, htallied, hearlier, hminis, fun index slot hslot => ?_⟩
  · have hnone : (parts.flatMap fun _ : Part => (none : Option (Letter σ)).toList) = [] :=
      List.flatMap_eq_nil_iff.mpr fun _ _ => rfl
    rw [List.flatMap_map, hnone, List.append_nil]
  · rw [List.map_map]
    exact List.map_id parts
  · rw [List.getElem?_map] at hslot
    obtain ⟨part, hpart, rfl⟩ := Option.map_eq_some_iff.mp hslot
    exact .planned (hplanned part (List.mem_of_getElem? hpart))

/-- The requests of a round with the one that is sent for a part. -/
theorem Round.letters_send (h : Round e c rows s parts past slots) {index : Nat} {part : Part}
    (hslot : slots[index]? = some (part, none)) (part' : Part) (l : Letter σ) :
    (s.letters ++ [l]).Perm
      (past ++ (slots.set index (part', some l)).flatMap fun slot => slot.2.toList) := by
  have hset : ((slots.set index (part', some l)).flatMap fun slot => slot.2.toList).Perm
      (l :: slots.flatMap fun slot => slot.2.toList) :=
    perm_flatMap_set hslot (fun slot => slot.2.toList) (part', some l)
  calc
    (s.letters ++ [l]).Perm (l :: s.letters) := List.perm_append_singleton l _
    List.Perm _ (l :: (past ++ slots.flatMap fun slot => slot.2.toList)) := h.letters.cons l
    List.Perm _ (past ++ l :: slots.flatMap fun slot => slot.2.toList) := List.perm_middle.symm
    List.Perm _ _ := hset.symm.append_left past

/-- A request that reaches its node belongs to a part of the round. -/
theorem Round.arrive (h : Round e c rows s parts past slots) (hl : s.letters[i]? = some l)
    (hnew : l.arrival = none) (arrival : Node σ × σ) (nodes : List (Node σ)) (state : σ) :
    ∃ slots', Round e c rows { s with
      nodes, state, letters := s.letters.set i { l with arrival := some arrival } }
      parts past slots' := by
  rcases h.mem_letters (List.mem_of_getElem? hl) with hpast | ⟨index, part, hslot, -⟩
  · exact absurd hnew (h.tallied.arrival_ne_none hpast)
  · let l' : Letter σ := { l with arrival := some arrival }
    let slots' := slots.set index (part, some l')
    have hset : (l :: s.letters.set i l').Perm (l' :: s.letters) := by
      simpa [List.flatMap_singleton'] using perm_flatMap_set hl (fun l => [l]) l'
    have hslots : (l :: slots'.flatMap fun slot => slot.2.toList).Perm
        (l' :: slots.flatMap fun slot => slot.2.toList) :=
      perm_flatMap_set hslot (fun slot => slot.2.toList) (part, some l')
    have hletters : (l :: s.letters.set i l').Perm
        (l :: (past ++ slots'.flatMap fun slot => slot.2.toList)) :=
      calc
        (l :: s.letters.set i l').Perm (l' :: s.letters) := hset
        List.Perm _ (l' :: (past ++ slots.flatMap fun slot => slot.2.toList)) :=
          h.letters.cons l'
        List.Perm _ (past ++ l' :: slots.flatMap fun slot => slot.2.toList) :=
          List.perm_middle.symm
        List.Perm _ (past ++ l :: slots'.flatMap fun slot => slot.2.toList) :=
          hslots.symm.append_left past
        List.Perm _ (l :: (past ++ slots'.flatMap fun slot => slot.2.toList)) :=
          List.perm_middle
    have hkept := (h.kept index _ hslot).arrive hnew (some arrival)
    exact ⟨slots', h.update hslot hkept hletters.cons_inv (.refl _ (fun _ => False) _)
      (set_of_getElem? (h.part_of_slot hslot)) rfl rfl rfl rfl rfl⟩

/-- A request reaches its node during its round, or after the call has failed. -/
theorem Phased.arrive (h : Phased e c rows s) (hl : s.letters[i]? = some l)
    (hnew : l.arrival = none) (arrival : Node σ × σ) (nodes : List (Node σ)) (state : σ) :
    Phased e c rows { s with
      nodes, state, letters := s.letters.set i { l with arrival := some arrival } } := by
  have hmem := List.mem_of_getElem? hl
  cases h with
  | mapping _ h _ => exact absurd hnew (h.arrival_ne_none hmem)
  | remapping _ h _ => exact absurd hnew (h.arrival_ne_none hmem)
  | finished _ h => exact absurd hnew (h.arrival_ne_none hmem)
  | exchanging hphase hround =>
    obtain ⟨slots', hround'⟩ := hround.arrive hl hnew arrival nodes state
    exact .exchanging hphase hround'
  | @failed err rest hphase hrest =>
    let l' : Letter σ := { l with arrival := some arrival }
    obtain ⟨spare, hspare⟩ : ∃ spare, (l'.liveRows ++ spare).Perm l.liveRows := by
      rw [show l.liveRows = l'.rows by simp [Letter.liveRows, hnew, l']]
      exact l'.live_rows
    have hset : (spare ++ (s.letters.set i l').flatMap Letter.liveRows).Perm
        (s.letters.flatMap Letter.liveRows) := by
      refine (List.perm_append_left_iff l'.liveRows).mp ?_
      rw [← List.append_assoc]
      exact (hspare.append_right _).trans (perm_flatMap_set hl Letter.liveRows l')
    have hnext : ((s.letters.set i l').flatMap Letter.liveRows ++ (spare ++ rest)).Perm rows := by
      rw [← List.append_assoc]
      exact ((List.perm_append_comm.trans hset).append_right rest).trans hrest
    exact .failed hphase hnext

end

omit [HasTopology σ] in
/-- Sending the request of a part ends the part with an error of the caller, or puts the request on
its way, with a receiver that is reserved for it. -/
theorem Network.take_sendPart (s : Network σ) {topology : TopologyVersion} {parts : List Part}
    {index : Nat} {part : Part} (hphase : s.call.phase = .exchanging topology parts)
    (hpart : parts[index]? = some part) (hsound : s.enlister.registry.Sound) (now : Nat) :
    ∃ registry nextMessageId,
      Tells (s.call.future, part.mini) (fun _ => False) s.enlister.registry registry ∧
      ((∃ err limitMs, err.IsOwn ∧
        (s.enlister.dispatch s.call.future part
          (s.call.request s.enlister topology part limitMs)).1 = .error err ∧
        s.take (s.call.sendPart s.enlister now topology index part) =
          s.take (none, s.call.setStage index (.ended (.error err)),
            { s.enlister with registry, nextMessageId })) ∨
        ∃ rx limitMs payload,
          s.enlister.encodeRequest part
            (s.call.request s.enlister topology part limitMs s.enlister.nextMessageId) =
              .ok payload ∧
          registry.Reserves (s.call.future, part.mini) rx (fun _ => False) ∧
          s.take (s.call.sendPart s.enlister now topology index part) =
            { s.take (none, s.call.setStage index (.sent rx now limitMs),
                { s.enlister with registry, nextMessageId }) with
              letters := s.letters ++ [{
                round := s.round, mini := part.mini, rows := part.rows
                dispatch := { index, node := part.node, payload } }] }) := by
  unfold Call.sendPart
  dsimp only
  generalize s.call.bounded now (s.call.options.timeoutMs.getD s.enlister.config.requestTimeoutMs) =
    limitMs
  obtain ⟨registry, nextMessageId, henlister, htells, hresult⟩ := s.enlister.dispatch_cases
    s.call.future part (s.call.request s.enlister topology part limitMs) hsound
  refine ⟨registry, nextMessageId, htells, ?_⟩
  rcases hdispatch : s.enlister.dispatch s.call.future part
    (s.call.request s.enlister topology part limitMs) with ⟨err | ⟨rx, payload⟩, enlister⟩ <;>
    rw [hdispatch] at henlister hresult <;> dsimp only at henlister hresult ⊢ <;> subst henlister
  · obtain ⟨err', herr', hown⟩ := hresult.resolve_right fun ⟨_, _, hok, _⟩ => by cases hok
    obtain rfl := Except.error.inj herr'
    exact .inl ⟨err, limitMs, hown, congrArg Prod.fst hdispatch, rfl⟩
  · obtain ⟨rx', payload', hok, hencoded, hreserves⟩ :=
      hresult.resolve_left fun ⟨_, herr, _⟩ => by cases herr
    obtain ⟨rfl, rfl⟩ := Prod.mk.inj (Except.ok.inj hok)
    refine .inr ⟨rx, limitMs, payload, hencoded, hreserves, ?_⟩
    have hpost : s.post { index, node := part.node, payload } = [{
        round := s.round, mini := part.mini, rows := part.rows
        dispatch := { index, node := part.node, payload } }] := by
      simp only [Network.post, hphase, hpart]
      rfl
    simp only [Network.take, Option.toList_some, List.flatMap_singleton, hpost, Option.toList_none,
      List.flatMap_nil]

/-- What a move comes down to: nothing happens, the call takes an event that can happen, a request
reaches its node, the nodes are left to others, or others use the enlister. -/
theorem Network.move_cases {P : Network σ → Prop} (s : Network σ) (m : Move σ) (hsame : P s)
    (hadvance : ∀ now event, s.Genuine event → event.isAnswer = true ∨ m = .event now event →
      P (s.advance now event))
    (harrive : ∀ (i : Nat) (l : Letter σ) (arrival : Node σ × σ) (nodes : List (Node σ))
      (state : σ), s.letters[i]? = some l → l.arrival = none →
        P { s with nodes, state, letters := s.letters.set i { l with arrival := some arrival } })
    (hchange : ∀ nodes state, P { s with nodes, state })
    (hregistry : ∀ (action : RegistryAction) (nextMini : MiniId) (nextMessageId : Int64),
      (∀ key, action.told? = some key → key.1 ≠ s.call.future) →
        P { s with enlister :=
          { s.enlister with
            registry := s.enlister.registry.perform action, nextMini, nextMessageId } }) :
    P (s.move m) := by
  cases m with
  | event now event =>
    simp only [move]
    split
    · exact hsame
    · next hother =>
      refine hadvance now event ?_ (.inr rfl)
      cases event with
      | settle index x =>
        cases x with
        | replied bytes => exact absurd rfl hother
        | failed chain => trivial
        | timedOut => trivial
      | _ => trivial
  | arrive letter node =>
    simp only [move, Network.arrive]
    split
    · next l n hl hn =>
      split
      · next hnew =>
        have hnone := (Bool.and_eq_true_iff.mp hnew).1
        exact harrive _ l (n, s.state) _ _ hl (Option.isNone_iff_eq_none.mp hnone)
      · exact hsame
    · exact hsame
  | answer now letter =>
    simp only [move, answer]
    split
    · next l hl =>
      split
      · next bytes hreply =>
        split
        · next hround =>
          exact hadvance now _ ⟨l, List.mem_of_getElem? hl, hround, rfl, hreply⟩ (.inl rfl)
        · exact hsame
      · exact hsame
    · exact hsame
  | change f => exact hchange _ _
  | registry action nextMini nextMessageId =>
    simp only [move]
    split
    · next hother =>
      refine hregistry action nextMini nextMessageId fun key hkey => ?_
      rw [hkey] at hother
      simpa using hother
    · exact hsame

namespace Accounted

variable {e : Enlister σ} {c : Call σ} {rows : List IndexedRow} {s : Network σ}

/-- A call keeps its account if it goes on without sending anything or telling a receiver anything
new. -/
theorem quiet (h : Accounted e c rows s) {call : Call σ} {enlister : Enlister σ} {round : Nat}
    {key : RequestKey} {told : Delivery → Prop} (hfuture : call.future = s.call.future)
    (hop : call.op = s.call.op)
    (hoptions : call.options = s.call.options)
    (henlister : ∃ registry nextMini nextMessageId,
      enlister = { s.enlister with registry, nextMini, nextMessageId })
    (htells : Tells key told s.enlister.registry enlister.registry)
    (hphased : Phased e c rows { s with call, enlister, round }) :
    Accounted e c rows { s with call, enlister, round } := by
  obtain ⟨registry, nextMini, nextMessageId, rfl⟩ := henlister
  obtain ⟨registry₀, nextMini₀, nextMessageId₀, henlister⟩ := h.enlister
  refine ⟨hfuture.trans h.future, hop.trans h.op, hoptions.trans h.options,
    ⟨registry, nextMini, nextMessageId, ?_⟩, htells.sound h.sound, h.posted, hphased⟩
  show ({ s.enlister with registry, nextMini, nextMessageId } : Enlister σ) = _
  rw [henlister]

/-- A call that ends with an error keeps its account, whatever phase it was in. -/
theorem fail (h : Accounted e c rows s) {call : Call σ} {enlister : Enlister σ} {round : Nat}
    {err : EnlistError} (hfuture : call.future = s.call.future) (hop : call.op = s.call.op)
    (hoptions : call.options = s.call.options) (hphase : call.phase = .ended (.error err))
    (henlister : ∃ registry nextMini nextMessageId,
      enlister = { s.enlister with registry, nextMini, nextMessageId })
    (htells : ∀ key told, Tells key told s.enlister.registry enlister.registry) :
    Accounted e c rows { s with call, enlister, round } := by
  obtain ⟨rest, hrest⟩ := h.phased.live
  exact h.quiet hfuture hop hoptions henlister (htells (⟨0⟩, 0) fun _ => False)
    (.failed hphase hrest)

/-! ## What happens beside the call -/

/-- Other uses of the enlister keep the account. -/
theorem perform (h : Accounted e c rows s) {action : RegistryAction} (nextMini : MiniId)
    (nextMessageId : Int64) (hother : ∀ key, action.told? = some key → key.1 ≠ s.call.future) :
    Accounted e c rows { s with enlister :=
      { s.enlister with
        registry := s.enlister.registry.perform action, nextMini, nextMessageId } } := by
  obtain ⟨key, told, htells, hkey⟩ := s.enlister.registry.tells_perform action
  exact h.quiet rfl rfl rfl ⟨_, _, _, rfl⟩ htells
    (h.phased.beside rfl rfl rfl htells (hkey.imp (fun h => h) (hother key)))

/-- A request that reaches its node keeps the account. -/
theorem arrive (h : Accounted e c rows s) {i : Nat} {l : Letter σ} (hl : s.letters[i]? = some l)
    (hnew : l.arrival = none) (arrival : Node σ × σ) (nodes : List (Node σ)) (state : σ) :
    Accounted e c rows { s with
      nodes, state, letters := s.letters.set i { l with arrival := some arrival } } := by
  refine ⟨h.future, h.op, h.options, h.enlister, h.sound, fun l' hl' => ?_,
    h.phased.arrive hl hnew arrival nodes state⟩
  rcases List.mem_or_eq_of_mem_set hl' with hl' | rfl
  · exact h.posted l' hl'
  · exact h.posted l (List.mem_of_getElem? hl)

/-! ## What the call does -/

/-- Mapping the outstanding rows splits them into the parts of a new round. A call without
outstanding rows is finished. -/
theorem mapRound (h : Accounted e c rows s) (hphase : s.call.phase = .mapping)
    (seen : Readings) :
    Accounted e c rows (s.take (none, s.call.mapRound s.enlister seen)) := by
  obtain ⟨htallied, hearlier⟩ := h.phased.of_mapping hphase
  rw [s.take_mapRound]
  unfold Call.mapRound
  split
  · next hempty =>
    refine h.quiet rfl rfl rfl ⟨_, _, _, rfl⟩ (.refl (⟨0⟩, 0) (fun _ => False) _) ?_
    rw [List.isEmpty_iff.mp hempty] at htallied
    exact .finished rfl htallied
  · next hempty =>
    split
    · next err enlister hmap =>
      obtain rfl := Enlister.mapRows_error hmap
      exact h.fail rfl rfl rfl rfl ⟨_, _, _, rfl⟩ fun _ _ => .refl ..
    · next parts enlister hmap =>
      obtain ⟨hrows, hminis, hplanned, nextMini, rfl⟩ := Enlister.mapRows_ok hmap
      have hearlier := hearlier.resolve_left fun hnil => hempty (by rw [hnil]; rfl)
      refine h.quiet rfl rfl rfl ⟨_, _, _, rfl⟩ (.refl (⟨0⟩, 0) (fun _ => False) _) ?_
      have htallied := htallied.of_perm (.refl _) hrows
      exact .exchanging rfl (.planned htallied hearlier hminis hplanned)

/-- A part of a round at another stage. -/
theorem setStage (h : Accounted e c rows s) {topology : TopologyVersion} {parts : List Part}
    {index : Nat} {part : Part} (hphase : s.call.phase = .exchanging topology parts)
    (hpart : parts[index]? = some part) {enlister : Enlister σ} {stage : PartStage}
    (henlister : ∃ registry nextMini nextMessageId,
      enlister = { s.enlister with registry, nextMini, nextMessageId })
    {told : Delivery → Prop}
    (htells : Tells (s.call.future, part.mini) told s.enlister.registry enlister.registry)
    (hkept : ∀ past slots letter, Round e c rows s parts past slots →
      slots[index]? = some (part, letter) →
      Slot.Kept e s.call.future s.round enlister.registry index
        ({ part with stage }, letter)) :
    Accounted e c rows (s.take (none, s.call.setStage index stage, enlister)) := by
  obtain ⟨past, slots, hround⟩ := h.phased.of_exchanging hphase
  obtain ⟨letter, hslot⟩ := hround.exists_slot hpart
  rw [s.take_setStage, Call.setStage_eq hphase hpart]
  have hletters : s.letters.Perm (past ++
      (slots.set index ({ part with stage }, letter)).flatMap fun slot => slot.2.toList) := by
    have hset := perm_flatMap_set hslot (fun slot => slot.2.toList) ({ part with stage }, letter)
    have hsame := (List.perm_append_left_iff letter.toList).mp hset
    exact hround.letters.trans (hsame.symm.append_left past)
  exact h.quiet rfl rfl rfl henlister htells (.exchanging rfl (hround.update hslot
    (hkept past slots letter hround hslot) hletters htells rfl rfl rfl rfl rfl rfl))

/-- A request that is brought into octets for a part carries its rows. -/
theorem posted_request (h : Accounted e c rows s)
    (hfilter : ∀ f, c.options.filter = some f → (Message.filter f).Built)
    {topology : TopologyVersion} {part : Part} {limitMs : Nat} (index : Nat) {payload : Bytes}
    (hencoded : s.enlister.encodeRequest part
      (s.call.request s.enlister topology part limitMs s.enlister.nextMessageId) = .ok payload) :
    Letter.Posted e c {
      round := s.round, mini := part.mini, rows := part.rows
      dispatch := { index, node := part.node, payload } } := by
  obtain ⟨registry, nextMini, nextMessageId, henlister⟩ := h.enlister
  refine ⟨part, s.call.request s.enlister topology part limitMs s.enlister.nextMessageId,
    ⟨rfl, rfl, rfl, fun f hf => hfilter f ?_⟩, congrArg some h.op, h.future, rfl,
    congrArg EnlistOptions.filter h.options, congrArg EnlistOptions.keepBinary h.options,
    congrArg EnlistOptions.needResult h.options, ?_⟩
  · rw [← h.options]
    exact hf
  · rw [henlister] at hencoded ⊢
    exact hencoded

/-- Sending the request of a part puts it on its way, with the rows of the part. -/
theorem sendPart (h : Accounted e c rows s) {topology : TopologyVersion} {parts : List Part}
    {index : Nat} {part : Part} (hphase : s.call.phase = .exchanging topology parts)
    (hpart : parts[index]? = some part) (hplanned : part.stage = .planned)
    (hfilter : ∀ f, c.options.filter = some f → (Message.filter f).Built) (now : Nat) :
    Accounted e c rows (s.take (s.call.sendPart s.enlister now topology index part)) := by
  obtain ⟨registry, nextMessageId, htells, hresult⟩ := s.take_sendPart hphase hpart h.sound now
  rcases hresult with ⟨err, -, herr, -, htake⟩ |
    ⟨rx, limitMs, payload, hencoded, hreserves, htake⟩ <;> rw [htake]
  · refine h.setStage hphase hpart ⟨_, _, _, rfl⟩ htells fun past slots letter hround hslot => ?_
    obtain rfl := (hround.kept index _ hslot).letter_eq_none hplanned
    exact .unsent rfl herr
  · have hposted := h.posted_request hfilter index hencoded
    obtain ⟨past, slots, hround⟩ := h.phased.of_exchanging hphase
    obtain ⟨letter, hslot⟩ := hround.exists_slot hpart
    obtain rfl := (hround.kept index _ hslot).letter_eq_none hplanned
    have hletters := hround.letters_send hslot { part with stage := .sent rx now limitMs } {
      round := s.round, mini := part.mini, rows := part.rows
      dispatch := { index, node := part.node, payload } }
    rw [s.take_setStage, Call.setStage_eq hphase hpart]
    obtain ⟨registry₀, nextMini₀, nextMessageId₀, henlister⟩ := h.enlister
    refine ⟨h.future, h.op, h.options, ⟨registry, nextMini₀, nextMessageId, ?_⟩,
      htells.sound h.sound, fun l' hl' => ?_, ?_⟩
    · rw [henlister]
    · rcases List.mem_append.mp hl' with hl' | hl'
      · exact h.posted l' hl'
      · rwa [List.mem_singleton.mp hl']
    · refine .exchanging rfl (hround.update hslot ?_ hletters htells rfl rfl rfl rfl rfl rfl)
      exact .awaited rfl ⟨rfl, rfl, rfl, rfl⟩ (hreserves.mono fun _ => False.elim)

/-- The enlister reads answers as it did when the call started. -/
theorem readReply_eq (h : Accounted e c rows s) (bytes : Bytes) :
    s.enlister.readReply bytes = e.readReply bytes := by
  obtain ⟨registry, nextMini, nextMessageId, henlister⟩ := h.enlister
  rw [henlister]
  rfl

/-- The end of an exchange tells its receiver an error, or the answer to its request. -/
theorem settle (h : Accounted e c rows s) {topology : TopologyVersion} {parts : List Part}
    {index : Nat} {part : Part} (hphase : s.call.phase = .exchanging topology parts)
    (hpart : parts[index]? = some part) {rx sentAt limitMs : Nat}
    (hsent : part.stage = .sent rx sentAt limitMs) {x : Exchange}
    (hgenuine : s.Genuine (.settle index x)) :
    Accounted e c rows (s.take (none, s.call.setStage index (.settled rx),
      s.enlister.settle (s.call.future, part.mini) limitMs x)) := by
  have hwaits : part.stage.receiver? = some rx := by rw [hsent]; rfl
  have hanswer : ∀ bytes response, x = .replied bytes → s.enlister.readReply bytes = .ok response →
      (response.futureId, response.mini) = (s.call.future, part.mini) := by
    rintro bytes response rfl hread
    obtain ⟨past, slots, hround⟩ := h.phased.of_exchanging hphase
    obtain ⟨letter, hslot⟩ := hround.exists_slot hpart
    obtain ⟨l, rfl, hfor, -⟩ := (hround.kept index _ hslot).exists_letter hwaits
    rw [h.readReply_eq] at hread
    have hposted := h.posted l (hround.mem_of_slot hslot)
    rw [(hposted.answer (hround.answered hslot hgenuine rfl) hread).1, h.future,
      hfor.mini_eq]
  obtain ⟨registry, henlister, htells⟩ :=
    s.enlister.settle_tells (s.call.future, part.mini) limitMs x hanswer
  rw [henlister]
  refine h.setStage hphase hpart ⟨_, _, _, rfl⟩ htells fun past slots letter hround hslot => ?_
  obtain ⟨l, rfl, hfor, hrx⟩ := (hround.kept index _ hslot).exists_letter hwaits
  refine .awaited rfl ⟨hfor.round_eq, hfor.index_eq, hfor.rows_eq, hfor.mini_eq⟩
    (hrx.tells htells fun _ outcome hends => ?_)
  rcases hends with herr | ⟨bytes, rfl, hread⟩
  · exact .inl herr
  · rw [h.readReply_eq] at hread
    exact .inr ⟨bytes, hround.answered hslot hgenuine rfl, hread⟩

/-- The outcome that is taken from a receiver is one that it may be told. -/
theorem collect (h : Accounted e c rows s) {topology : TopologyVersion} {parts : List Part}
    {index : Nat} {part : Part} (hphase : s.call.phase = .exchanging topology parts)
    (hpart : parts[index]? = some part) {rx : Nat} (hsettled : part.stage = .settled rx)
    {outcome : Delivery} {enlister : Enlister σ}
    (hcollect : s.enlister.collect (s.call.future, part.mini) rx = (some outcome, enlister)) :
    Accounted e c rows (s.take (none, s.call.setStage index (.ended outcome), enlister)) := by
  have hwaits : part.stage.receiver? = some rx := by rw [hsettled]; rfl
  have htells : Tells (s.call.future, part.mini) (fun _ => False) s.enlister.registry _ :=
    s.enlister.registry.tells_poll rx
  obtain ⟨rfl, -⟩ := Enlister.collect_some hcollect
  refine h.setStage hphase hpart ⟨_, _, _, rfl⟩ htells fun past slots letter hround hslot => ?_
  obtain ⟨l, rfl, hfor, htold⟩ := hround.collected hslot hwaits hcollect
  exact .ended rfl ⟨hfor.round_eq, hfor.index_eq, hfor.rows_eq, hfor.mini_eq⟩ htold

/-- A call that is aborted keeps its account. -/
theorem abort (h : Accounted e c rows s) {call : Call σ} {registry : Registry}
    (hfuture : call.future = s.call.future) (hop : call.op = s.call.op)
    (hoptions : call.options = s.call.options)
    (htells : ∀ key told, Tells key told s.enlister.registry registry) (err : EnlistError) :
    Accounted e c rows
      (s.take (none, call.abort { s.enlister with registry } err)) := by
  rw [Network.take_none]
  exact h.fail hfuture hop hoptions rfl ⟨_, _, _, rfl⟩ fun key told =>
    (htells key told).trans (tells_cancel registry call.future)

/-- The end of a round ends the call, or leaves the rows outstanding for which a remap was asked
and nothing else. -/
theorem closeRound (h : Accounted e c rows s) (horder : InOrder rows)
    {topology : TopologyVersion} {parts : List Part}
    (hphase : s.call.phase = .exchanging topology parts) {o : RoundOutcome}
    (ho : Call.roundOutcome topology { result := s.call.result } parts = some o) (now : Nat) :
    Accounted e c rows (s.take (none, s.call.closeRound s.enlister now topology parts o)) := by
  obtain ⟨past, slots, hround⟩ := h.phased.of_exchanging hphase
  have htells : ∀ key told, Tells key told s.enlister.registry
      (Call.completeRemapped s.call.future topology s.enlister.registry parts) :=
    fun key told => tells_completeRemapped _ _ _ _
  unfold Call.closeRound
  dsimp only
  split
  · refine h.abort ?_ ?_ ?_ htells _ <;> rfl
  · next hfailure hremap =>
    obtain ⟨htallied, hnone⟩ := hround.close horder h.posted ho hfailure
    rw [Network.take_none]
    exact h.quiet rfl rfl rfl ⟨_, _, _, rfl⟩ (htells (⟨0⟩, 0) fun _ => False)
      (.mapping rfl htallied (.inl (hnone hremap)))
  · next current mini hfailure hremap =>
    split
    · refine h.abort ?_ ?_ ?_ htells _ <;> rfl
    · obtain ⟨htallied, -⟩ := hround.close horder h.posted ho hfailure
      rw [Network.take_none]
      refine h.quiet rfl rfl rfl ⟨_, _, _, rfl⟩ (htells (⟨0⟩, 0) fun _ => False)
        (.remapping rfl htallied fun l hl => ?_)
      refine Nat.lt_of_lt_of_eq ?_ (s.roundAfter_of_remap rfl).symm
      rcases hround.mem_letters hl with hpast | ⟨index, part, -, hfor⟩
      · exact Nat.lt_succ_of_lt (hround.earlier l hpast)
      · rw [hfor.round_eq]
        exact Nat.lt_succ_self _

/-- Going on to the next round keeps the account. -/
theorem nextRound (h : Accounted e c rows s) {requested current : TopologyVersion} {mini : MiniId}
    {giveUpAt : Nat} (hphase : s.call.phase = .remapping requested current mini giveUpAt) :
    Accounted e c rows (s.take (none, s.call.nextRound, s.enlister)) := by
  obtain ⟨htallied, hearlier⟩ := h.phased.of_remapping hphase
  rw [s.take_nextRound]
  exact h.quiet rfl rfl rfl ⟨_, _, _, rfl⟩ (.refl (⟨0⟩, 0) (fun _ => False) _)
    (.mapping rfl (htallied.of_perm (.refl _) (List.mergeSort_perm _ _)) (.inr hearlier))

/-- Giving up keeps the account. -/
theorem abandon (h : Accounted e c rows s) (now : Nat) (requested current : TopologyVersion)
    (mini : MiniId) :
    Accounted e c rows (s.take (none, s.call.abandon s.enlister now requested current mini)) := by
  unfold Call.abandon
  split
  · exact h.abort rfl rfl rfl (fun _ _ => .refl ..) _
  · exact h.abort rfl rfl rfl (fun _ _ => .refl ..) _

/-! ## Runs -/

/-- Every event of the call keeps its account. -/
theorem advance (h : Accounted e c rows s) (horder : InOrder rows)
    (hfilter : ∀ f, c.options.filter = some f → (Message.filter f).Built) (now : Nat)
    {event : Event} (hgenuine : s.Genuine event) :
    Accounted e c rows (s.advance now event) := by
  have heffect := s.call.step_effect s.enlister now event
  unfold Network.advance
  generalize s.call.step s.enlister now event = r at heffect ⊢
  cases heffect with
  | idle =>
    rw [s.take_idle]
    exact h
  | map hphase => exact h.mapRound hphase _
  | send hphase hpart hplanned => exact h.sendPart hphase hpart hplanned hfilter now
  | settle hphase hpart hsent => exact h.settle hphase hpart hsent hgenuine
  | collect hphase hpart hsettled hcollect => exact h.collect hphase hpart hsettled hcollect
  | close hphase ho => exact h.closeRound horder hphase ho now
  | resume hphase _ => exact h.nextRound hphase
  | giveUp _ _ => exact h.abandon now _ _ _

/-- Every move keeps the account of the call. -/
theorem move (h : Accounted e c rows s) (horder : InOrder rows)
    (hfilter : ∀ f, c.options.filter = some f → (Message.filter f).Built) (m : Move σ) :
    Accounted e c rows (s.move m) :=
  s.move_cases m h (fun now _ hgenuine _ => h.advance horder hfilter now hgenuine)
    (fun _ _ arrival nodes state hl hnew => h.arrive hl hnew arrival nodes state)
    (fun _ _ => ⟨h.future, h.op, h.options, h.enlister, h.sound, h.posted,
      h.phased.beside rfl rfl rfl (.refl (⟨0⟩, 0) (fun _ => False) _) (.inl fun _ => id)⟩)
    fun _ nextMini nextMessageId hother => h.perform nextMini nextMessageId hother

end Accounted

end Enlistment
