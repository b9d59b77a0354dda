import Enlistment.Proofs.Caller.ExactlyOnce
import Enlistment.Proofs.Caller.Merging
import Enlistment.Proofs.Caller.PureRequests
import Enlistment.Proofs.Node.SkippedRows

/-!
# Failures of rows

The result of a call lists the rows that were skipped. A row is numbered anew in every request, and
the enlister puts its position in the caller's batch back. The reason comes from the node as it is,
so where it names a row, it names it by its position in the request.
-/

namespace Enlistment

variable {σ : Type}

/-! ## Rows that a filter rejects -/

/-- The filter of a batch rejects the row at a position: no other transaction has locked its key,
and the filter does not let the row pass on what the rows before it have staged. -/
structure NodeState.Rejects (s : NodeState) (ctx : ApplyContext σ) (rows : List (EnlistedRow σ))
    (state : σ) (p : Nat) (row : EnlistedRow σ) : Prop where
  row_eq : rows[p]? = some row
  marshalled : row.keyObject.bytes.isSome = true
  free : s.store.rival ctx.lock row.keyBytes = none
  refused : ∃ (before : Staged) (now : σ) (f : Filter σ) (current : Option Value) (later : σ),
    s.stageRows ctx (rows.take p) state = (.ok before, now) ∧ ctx.filter = some f ∧
      currentValue s.store ctx before.batch row.keyBytes = .ok current ∧
      f.evaluate now (row.keyObject.value.getD .null) current = (false, later)

/-- A row that the filter rejects is reported, and the reason names its position. -/
theorem Staged.LinesUp.reports_rejected {s : NodeState} {ctx : ApplyContext σ}
    {rows : List (EnlistedRow σ)} {state : σ} {effects : List RowEffect} {staged : Staged}
    (h : staged.LinesUp s ctx rows state effects) {p : Nat} {row : EnlistedRow σ}
    (hrejected : s.Rejects ctx rows state p row) :
    ∃ effect, effects[p]? = some effect ∧
      effect.failure = some (EnlistError.predicateFailure p).message := by
  obtain ⟨hrow, hmarshalled, hfree, before, now, f, current, later, hbefore, hf, hcurrent,
    hrefused⟩ := hrejected
  have hp : p < effects.length := h.length ▸ (List.getElem?_eq_some_iff.mp hrow).1
  have heffect := List.getElem?_eq_getElem hp
  obtain ⟨found, before', now', later', hfound, hbefore', houtcome⟩ := h.tried p _ heffect
  obtain rfl := Option.some.inj (hrow.symm.trans hfound)
  obtain ⟨hsame, rfl⟩ := Prod.mk.inj (hbefore.symm.trans hbefore')
  obtain rfl := Except.ok.inj hsame
  obtain ⟨key, hkey⟩ := Option.isSome_iff_exists.mp hmarshalled
  simp only [rowOutcome, hkey, hfree, acceptedOutcome, hcurrent, hf, Option.map_some,
    hrefused] at houtcome
  refine ⟨_, heffect, ?_⟩
  rw [← Except.ok.inj (Prod.mk.inj houtcome).1]
  rfl

/-- A key without an entry does not pass the filter of existing entries. -/
example :
    let key : EnlistedRow TopologyView := .key (.ofKey (.ofCache 1 1) (.int 5))
    let ctx : ApplyContext TopologyView :=
      { op := .delete, filter := some .hasValue, snapshot := none, lock := ⟨1, 1, 1⟩
        needResult := false }
    NodeState.Rejects {} ctx [key] (.ofNodes [1] 1) 0 key :=
  ⟨rfl, rfl, rfl, _, _, _, _, _, rfl, rfl, rfl, rfl⟩

/-! ## Requests that are carried out -/

/-- A loader is a library for itself. -/
theorem ClassLoader.LoadsFrom.refl (loader : ClassLoader σ) : loader.LoadsFrom loader :=
  ⟨fun _ _ h => h, fun _ _ h => h⟩

section

variable [HasTopology σ]

/-- The answer of its node to a request, before it is brought into octets. -/
def Letter.answer? (l : Letter σ) : Option EnlistResponse :=
  l.arrival.bind fun a => (a.1.decodeRequest l.dispatch.payload).toOption.map fun req =>
    (a.1.handleRequest req a.2).1

/-- A request of a call was carried out by a node: the node has read it, has rebuilt the filter of
the call and the rows, has staged these one by one, and has committed what was staged. -/
structure Letter.CarriedOut (c : Call σ) (l : Letter σ) (n : Node σ) (state : σ)
    (ctx : ApplyContext σ) (received : List (EnlistedRow σ)) (staged : Staged) : Prop where
  arrival : l.arrival = some (n, state)
  read : ∃ req req' : EnlistRequest σ, n.decodeRequest l.dispatch.payload = .ok req ∧
    req.unmarshal n.loader = (.ok (), req') ∧ req'.applyContext c.op = ctx ∧
    req'.takeRows.1.map EnlistedRow.unplaced = received
  filter : ctx.filter = c.options.filter.map (Filter.received n.loader)
  rows : List.Forall₂ (fun row r => row.2.received n.loader = .ok r) l.rows received
  stages : ∃ state', n.state.stageRows ctx received state = (.ok staged, state')
  node : (n.handleBytes l.dispatch.payload state).2.1 =
    { n with state := n.state.commit staged.batch }
  failures : l.answer?.map EnlistResponse.failures = some staged.outcome.failures
  length_le : l.rows.length ≤ Wire.maxWireLength

omit [HasTopology σ] in
/-- The answer to a request that was carried out reports the failures of its rows. -/
theorem Node.respond_ok_failures (req : EnlistRequest σ) (outcome : BatchOutcome) :
    (respond req (.ok outcome)).failures = outcome.failures := by
  obtain ⟨previous, updated, failures⟩ := outcome
  cases failures <;> cases hneed : req.needResult <;>
    simp [respond, hneed, EnlistResponse.withFailures, EnlistResponse.withUpdateCount,
      EnlistResponse.ofRequest, EnlistResponse.failures]

/-- A request of a call that was committed was carried out. -/
theorem Letter.Posted.carriedOut {e : Enlister σ} {c : Call σ} {l : Letter σ} (h : l.Posted e c)
    (hcommitted : l.committed = true) :
    ∃ n state ctx received staged, l.CarriedOut c n state ctx received staged := by
  obtain ⟨part, sent, hfresh, hop, -, -, hfilter, -, -, hsent⟩ := h
  unfold committed at hcommitted
  rcases harrival : l.arrival with _ | ⟨n, state⟩ <;> rw [harrival] at hcommitted
  · cases hcommitted
  · have hchanged := of_decide_eq_true hcommitted
    cases hread : n.decodeRequest l.dispatch.payload with
    | error err =>
      simp only [Node.handleBytes, hread] at hchanged
      exact absurd rfl hchanged
    | ok req =>
      have hconveys := Node.decodeRequest_conveys hfresh hsent hread
      obtain ⟨wire, hconvert, hwire⟩ := hconveys.rows
      have hhandled : (n.handleBytes l.dispatch.payload state).2.1 = (n.enlist req state).2.1 := by
        simp only [Node.handleBytes, hread, Node.handleRequest]
      have hanswer : l.answer? = some (Node.respond req (n.enlist req state).1) := by
        simp only [answer?, harrival, Option.bind_some, hread, Except.toOption, Option.map_some,
          Node.handleRequest]
      have hending := n.enlist_ending req state
      rw [hhandled] at hchanged
      generalize n.enlist req state = r at hending hchanged hhandled hanswer
      cases hending with
      | rejected he => exact absurd rfl hchanged
      | idle hnone => exact absurd rfl hchanged
      | @committed req' op staged state' hreq hop' hstaged hvalid =>
        obtain ⟨hctx, hreceived⟩ := EnlistRequest.unmarshal_received (.refl n.loader) hconvert hwire
          hconveys.filter hconveys.snapshot hconveys.lock hconveys.needResult hreq op
        obtain rfl : op = c.op :=
          Option.some.inj (hop'.symm.trans (hconveys.op.trans hop))
        have hcount := hconveys.length_le
        rw [List.length_map] at hcount
        refine ⟨n, state, req'.applyContext c.op, _, staged, harrival,
          ⟨req, req', hread, hreq, rfl, rfl⟩, ?_, List.forall₂_map_left_iff.mp hreceived,
          ⟨state', ?_⟩, hhandled, ?_, hcount⟩
        · rw [hctx, EnlistRequest.receivedContext, hfilter]
        · rw [NodeState.stageRows, stageFrom_unplaced]
          exact hstaged
        · rw [hanswer, Option.map_some, Node.respond_ok_failures]

/-! ## What a request reports -/

/-- The failures in the answer to a request that was committed, as the caller knows the rows. -/
def Letter.failures (l : Letter σ) : List RowFailure :=
  if l.committed then
    ((l.answer?.map EnlistResponse.failures).getD []).map (EnlistResult.callerFailure l.rows)
  else []

/-- The caller reads the failures that the node has answered. -/
theorem Letter.answer?_of_reply {e : Enlister σ} {l : Letter σ} {bytes : Bytes}
    {response : EnlistResponse} (hreply : l.reply = some (.ok bytes))
    (hread : e.readReply bytes = .ok response) :
    l.answer?.map EnlistResponse.failures = some response.failures := by
  obtain ⟨⟨n, state⟩, harrival, hanswer⟩ := Option.map_eq_some_iff.mp hreply
  dsimp only at hanswer
  cases hreq : n.decodeRequest l.dispatch.payload with
  | error err =>
    simp only [Node.handleBytes, hreq] at hanswer
    cases hanswer
  | ok req =>
    simp only [Node.handleBytes, hreq] at hanswer
    rw [Enlister.readReply_eq hanswer hread]
    simp only [answer?, harrival, Option.bind_some, hreq, Except.toOption, Option.map_some]
    rfl

namespace Letter.CarriedOut

variable {c : Call σ} {l : Letter σ} {n : Node σ} {state : σ} {ctx : ApplyContext σ}
  {received : List (EnlistedRow σ)} {staged : Staged}

/-- What is staged for a request lines up with its rows, and the request reports what these rows
do, each with its position in the caller's batch. -/
theorem reports (h : l.CarriedOut c n state ctx received staged) (hcommitted : l.committed = true) :
    ∃ effects, staged.LinesUp n.state ctx received state effects ∧
      l.failures = (EnlistResult.reported l.rows effects).map fun r => .ofIndex r.1 r.2 := by
  obtain ⟨state', hstages⟩ := h.stages
  have hlines := NodeState.stageRows_linesUp hstages
  obtain ⟨-, htells⟩ := stageFrom_tells hstages
  refine ⟨_, hlines, ?_⟩
  have hlength := hlines.length.trans h.rows.length_eq.symm
  rw [Letter.failures, if_pos hcommitted, h.failures, Option.getD_some, htells.failures,
    List.nil_append]
  refine EnlistResult.callerFailure_zipIdx h.length_le hlength fun p row hp => ?_
  rwa [Nat.zero_add]

end Letter.CarriedOut

/-! ## What a call notes -/

/-- What a request reports if it is of an earlier round. -/
def Letter.earlierFailures (round : Nat) (l : Letter σ) : List RowFailure :=
  if l.round < round then l.failures else []

/-- A call has noted what its requests report, those of a round on its way excepted. In the result
the failures are in the order of their rows. -/
inductive Call.Noted (round : Nat) (letters : List (Letter σ)) (call : Call σ) : Prop
  | mapping (hphase : call.phase = .mapping)
      (h : call.result.failures.Perm (letters.flatMap Letter.failures)) : Noted round letters call
  | exchanging {topology : TopologyVersion} {parts : List Part}
      (hphase : call.phase = .exchanging topology parts)
      (h : call.result.failures.Perm (letters.flatMap (Letter.earlierFailures round))) :
      Noted round letters call
  | remapping {requested current : TopologyVersion} {mini : MiniId} {giveUpAt : Nat}
      (hphase : call.phase = .remapping requested current mini giveUpAt)
      (h : call.result.failures.Perm (letters.flatMap Letter.failures)) : Noted round letters call
  | finished {result : EnlistResult} (hphase : call.phase = .ended (.ok result))
      (h : result.failures.Perm (letters.flatMap Letter.failures))
      (hsorted : result.failures.Pairwise fun a b => a.index ≤ b.index) : Noted round letters call
  | failed {err : EnlistError} (hphase : call.phase = .ended (.error err)) :
      Noted round letters call

namespace Call.Noted

variable {round : Nat} {letters : List (Letter σ)} {call : Call σ}

/-- A call that is about to map has noted all that its requests report. -/
theorem of_mapping (h : call.Noted round letters) (hmapping : call.phase = .mapping) :
    call.result.failures.Perm (letters.flatMap Letter.failures) := by
  cases h with
  | mapping _ h => exact h
  | _ hphase => cases hphase.symm.trans hmapping

/-- A call that exchanges has noted what its requests of earlier rounds report. -/
theorem of_exchanging (h : call.Noted round letters) {topology : TopologyVersion}
    {parts : List Part} (hexchanging : call.phase = .exchanging topology parts) :
    call.result.failures.Perm (letters.flatMap (Letter.earlierFailures round)) := by
  cases h with
  | exchanging _ h => exact h
  | _ hphase => cases hphase.symm.trans hexchanging

/-- A call that waits for a topology has noted all that its requests report. -/
theorem of_remapping (h : call.Noted round letters) {requested current : TopologyVersion}
    {mini : MiniId} {giveUpAt : Nat} (hremapping : call.phase = .remapping requested current mini giveUpAt) :
    call.result.failures.Perm (letters.flatMap Letter.failures) := by
  cases h with
  | remapping _ h => exact h
  | _ hphase => cases hphase.symm.trans hremapping

/-- A call that has ended well has noted all that its requests report, in the order of the rows. -/
theorem of_finished (h : call.Noted round letters) {result : EnlistResult}
    (hfinished : call.phase = .ended (.ok result)) :
    result.failures.Perm (letters.flatMap Letter.failures) ∧
      result.failures.Pairwise fun a b => a.index ≤ b.index := by
  cases h with
  | finished hphase h hsorted =>
    cases hphase.symm.trans hfinished
    exact ⟨h, hsorted⟩
  | _ hphase => cases hphase.symm.trans hfinished

end Call.Noted

/-- Requests of earlier rounds report all that they report. -/
theorem Letter.flatMap_earlierFailures {letters : List (Letter σ)} {round : Nat}
    (h : ∀ l ∈ letters, l.round < round) :
    letters.flatMap (earlierFailures round) = letters.flatMap failures := by
  rw [List.flatMap_def, List.flatMap_def]
  exact congrArg List.flatten (List.map_congr_left fun l hl => if_pos (h l hl))

section

variable {e : Enlister σ} {c : Call σ} {rows : List IndexedRow} {s : Network σ}

/-- A round puts the failures of its parts behind those of the rounds before. -/
theorem RoundOutcome.failures_roundOutcome {topology : TopologyVersion} {o o' : RoundOutcome}
    {slots : List (Slot σ)} (hclosed : ∀ slot ∈ slots, slot.Closed e c)
    (ho : Call.roundOutcome topology o (slots.map Prod.fst) = some o')
    (hsuccess : o'.failure = none) :
    o'.result.failures = o.result.failures ++
      (slots.flatMap fun slot => slot.2.toList).flatMap Letter.failures := by
  induction slots generalizing o with
  | nil =>
    obtain rfl := Option.some.inj ho
    exact (List.append_nil _).symm
  | cons slot rest ih =>
    obtain ⟨part, letter⟩ := slot
    obtain ⟨hfirst, hrest⟩ := List.forall_mem_cons.mp hclosed
    rw [List.map_cons, Call.roundOutcome] at ho
    cases hstage : part.stage with
    | planned => simp only [hstage] at ho; cases ho
    | sent rx sentAt limitMs => simp only [hstage] at ho; cases ho
    | settled rx => simp only [hstage] at ho; cases ho
    | ended outcome =>
      simp only [hstage] at ho
      have hadded : (o.add topology part outcome).failure = none := by
        by_contra hfailed
        exact failure_roundOutcome hfailed ho hsuccess
      obtain ⟨l, bytes, response, rfl, -, hposted, hreply, hread, hadd⟩ :=
        added_of_closed hfirst hstage hadded
      have hanswer := hposted.answer hreply hread
      have hone : (o.add topology part outcome).result.failures =
          o.result.failures ++ l.failures := by
        rcases hadd with ⟨current, hasked, hadd⟩ | ⟨hasked, herror, result, -, hfailures, hadd⟩
        · have hrejected : l.committed = false := hanswer.2.1 (.inl (by rw [hasked]; rfl))
          have hnone : l.failures = [] := by simp [Letter.failures, hrejected]
          rw [hadd, hnone, List.append_nil]
        · have hcommitted := (hanswer.2.2 hasked herror).1
          rw [hadd, Letter.failures, if_pos hcommitted, Letter.answer?_of_reply hreply hread,
            Option.getD_some, ← hfailures]
          rfl
      rw [ih hrest ho, hone, List.flatMap_cons, Option.toList_some, List.singleton_append,
        List.flatMap_cons, List.append_assoc]

/-- What the requests of earlier rounds report, while a round is on its way. -/
theorem Round.earlierFailures {parts : List Part} {past : List (Letter σ)} {slots : List (Slot σ)}
    (h : Round e c rows s parts past slots) :
    (s.letters.flatMap (Letter.earlierFailures s.round)).Perm
      (past.flatMap Letter.failures) := by
  refine (h.letters.flatMap_right _).trans ?_
  rw [List.flatMap_append, Letter.flatMap_earlierFailures h.earlier]
  have hnone : (slots.flatMap fun slot => slot.2.toList).flatMap
      (Letter.earlierFailures s.round) = [] := by
    refine List.flatMap_eq_nil_iff.mpr fun l hl => ?_
    obtain ⟨⟨part, letter⟩, hslot, hletter⟩ := List.mem_flatMap.mp hl
    obtain rfl : letter = some l := by simpa using hletter
    obtain ⟨index, hindex⟩ := List.getElem?_of_mem hslot
    have hround := (h.kept index _ hindex).for_part.round_eq
    exact if_neg (by rw [hround]; exact Nat.lt_irrefl _)
  rw [hnone, List.append_nil]

namespace Network

/-- Mapping the outstanding rows starts a round in which nothing is noted yet. A call without
outstanding rows sorts what it has noted. -/
theorem noted_mapRound (h : s.call.Noted s.round s.letters) (haccount : Accounted e c rows s)
    (hphase : s.call.phase = .mapping) (seen : Readings) :
    (s.call.mapRound s.enlister seen).1.Noted s.round s.letters := by
  obtain ⟨-, hearlier⟩ := haccount.phased.of_mapping hphase
  have hnoted := h.of_mapping hphase
  unfold Call.mapRound
  split
  · exact .finished rfl ((EnlistResult.sortFailures_perm _).trans hnoted)
      (EnlistResult.pairwise_sortFailures _)
  · next hempty =>
    split
    · exact .failed rfl
    · have hrounds := hearlier.resolve_left fun hnil => hempty (by rw [hnil]; rfl)
      rw [← Letter.flatMap_earlierFailures hrounds] at hnoted
      exact .exchanging rfl hnoted

/-- The end of a round notes what its requests report. -/
theorem noted_closeRound (h : s.call.Noted s.round s.letters) (haccount : Accounted e c rows s)
    {version : TopologyVersion} {parts : List Part}
    (hphase : s.call.phase = .exchanging version parts) {o : RoundOutcome}
    (ho : Call.roundOutcome version { result := s.call.result } parts = some o) (now round : Nat) :
    (s.call.closeRound s.enlister now version parts o).1.Noted round s.letters := by
  obtain ⟨past, slots, hround⟩ := haccount.phased.of_exchanging hphase
  have hnoted : o.failure = none →
      o.result.failures.Perm (s.letters.flatMap Letter.failures) := by
    intro hfailure
    rw [← hround.parts_eq] at ho
    rw [RoundOutcome.failures_roundOutcome (hround.closed haccount.posted) ho hfailure]
    have hearlier := (h.of_exchanging hphase).trans hround.earlierFailures
    refine (hearlier.append_right _).trans ?_
    rw [← List.flatMap_append]
    exact (hround.letters.flatMap_right _).symm
  unfold Call.closeRound
  dsimp only
  split
  · exact .failed rfl
  · next hfailure _ => exact .mapping rfl (hnoted hfailure)
  · next hfailure _ =>
    split
    · exact .failed rfl
    · exact .remapping rfl (hnoted hfailure)

/-- Every event of the call keeps what it has noted. -/
theorem noted_advance (h : s.call.Noted s.round s.letters) (haccount : Accounted e c rows s)
    (now : Nat) (event : Event) :
    (s.advance now event).call.Noted (s.advance now event).round (s.advance now event).letters := by
  -- the stages of its parts do not show in what a call has noted
  have hstage : ∀ {version parts}, s.call.phase = .exchanging version parts → ∀ index stage,
      (s.call.setStage index stage).Noted s.round s.letters := by
    intro version parts hphase index stage
    simp only [Call.setStage, hphase]
    exact .exchanging rfl (h.of_exchanging hphase)
  have heffect := s.call.step_effect s.enlister now event
  unfold advance
  generalize s.call.step s.enlister now event = r at heffect ⊢
  cases heffect with
  | idle =>
    rw [s.take_idle]
    exact h
  | map hphase =>
    rw [s.take_mapRound]
    exact noted_mapRound h haccount hphase _
  | send hphase hpart _ =>
    obtain ⟨registry, nextMessageId, -, hresult⟩ :=
      s.take_sendPart hphase hpart haccount.sound now
    rcases hresult with ⟨_, _, -, -, htake⟩ | ⟨_, _, _, -, -, htake⟩ <;>
      rw [htake, s.take_setStage]
    · exact hstage hphase _ _
    · -- the request that is sent is one of this round
      have hnoted := h.of_exchanging hphase
      simp only [Call.setStage, hphase]
      refine .exchanging rfl ?_
      simpa [List.flatMap_append, Letter.earlierFailures] using hnoted
  | settle hphase _ _ =>
    rw [s.take_setStage]
    exact hstage hphase _ _
  | collect hphase _ _ _ =>
    rw [s.take_setStage]
    exact hstage hphase _ _
  | close hphase ho =>
    rw [take_none]
    exact noted_closeRound h haccount hphase ho now _
  | resume hphase _ =>
    rw [take_none]
    exact .mapping rfl (h.of_remapping hphase)
  | giveUp _ _ =>
    rw [take_none]
    unfold Call.abandon
    split <;> exact .failed rfl

/-- A request that reaches its node is one of the round on its way, or the call has failed. -/
theorem noted_arrive (h : s.call.Noted s.round s.letters) (haccount : Accounted e c rows s) {i : Nat}
    {l : Letter σ} (hl : s.letters[i]? = some l) (hnew : l.arrival = none)
    (arrival : Node σ × σ) :
    s.call.Noted s.round (s.letters.set i { l with arrival := some arrival }) := by
  have hmem := List.mem_of_getElem? hl
  cases haccount.phased with
  | mapping _ htallied _ => exact absurd hnew (htallied.arrival_ne_none hmem)
  | remapping _ htallied _ => exact absurd hnew (htallied.arrival_ne_none hmem)
  | finished _ htallied => exact absurd hnew (htallied.arrival_ne_none hmem)
  | failed hphase _ => exact .failed hphase
  | exchanging hphase hround =>
    have hcurrent : l.round = s.round := by
      rcases hround.mem_letters hmem with hpast | ⟨_, _, -, hfor⟩
      · exact absurd hnew (hround.tallied.arrival_ne_none hpast)
      · exact hfor.round_eq
    let l' : Letter σ := { l with arrival := some arrival }
    have hnone : ∀ found : Letter σ, found.round = l.round →
        found.earlierFailures s.round = [] := fun found hfound =>
      if_neg (by rw [hfound, hcurrent]; exact Nat.lt_irrefl _)
    have hset := perm_flatMap_set hl (Letter.earlierFailures s.round) l'
    rw [hnone l rfl, hnone l' rfl] at hset
    exact .exchanging hphase ((h.of_exchanging hphase).trans hset.symm)

/-- Every move keeps what the call has noted. -/
theorem noted_move (h : s.call.Noted s.round s.letters) (haccount : Accounted e c rows s) (m : Move σ) :
    (s.move m).call.Noted (s.move m).round (s.move m).letters :=
  move_cases (P := fun s => s.call.Noted s.round s.letters) s m h
    (fun now event _ _ => noted_advance h haccount now event)
    (fun _ _ arrival _ _ hl hnew => noted_arrive h haccount hl hnew arrival)
    (fun _ _ => h) fun _ _ _ _ => h

end Network

/-- All requests of a call report rows that they have committed, each at most once. -/
theorem Letter.exists_reports {letters : List (Letter σ)} (h : ∀ l ∈ letters, l.Posted e c) :
    ∃ reports : List (Nat × String),
      letters.flatMap failures = (reports.map fun r => RowFailure.ofIndex r.1 r.2) ∧
      (reports.map Prod.fst).Sublist ((letters.flatMap committedRows).map Prod.fst) := by
  induction letters with
  | nil => exact ⟨[], rfl, .refl []⟩
  | cons l rest ih =>
    obtain ⟨hposted, hrest⟩ := List.forall_mem_cons.mp h
    obtain ⟨others, hothers, hsublist⟩ := ih hrest
    by_cases hcommitted : l.committed = true
    · obtain ⟨n, state, ctx, received, staged, hdone⟩ := hposted.carriedOut hcommitted
      obtain ⟨effects, -, hfailures⟩ := hdone.reports hcommitted
      refine ⟨EnlistResult.reported l.rows effects ++ others, ?_, ?_⟩
      · rw [List.flatMap_cons, hfailures, hothers, List.map_append]
      · rw [List.flatMap_cons, committedRows, if_pos hcommitted, List.map_append, List.map_append]
        exact (EnlistResult.reported_sublist l.rows effects).append hsublist
    · refine ⟨others, ?_, ?_⟩
      · rw [List.flatMap_cons, failures, if_neg hcommitted, List.nil_append, hothers]
      · rwa [List.flatMap_cons, committedRows, if_neg hcommitted, List.nil_append]

end

end

/-! ## Failures of a batch -/

/-- Different positions below a bound have failures with different indices, unless both are beyond
what 32 bits can tell apart. -/
theorem RowFailure.index_ne_or {i j count : Nat} (hne : i ≠ j) (hi : i < count) (hj : j < count)
    (reason reason' : String) :
    (ofIndex i reason).index ≠ (ofIndex j reason').index ∨
      2 ^ 31 < count ∧ (ofIndex i reason).index = Int32.maxValue ∧
        (ofIndex j reason').index = Int32.maxValue := by
  have hindex := toInt_index_ofIndex i reason
  have hindex' := toInt_index_ofIndex j reason'
  by_cases hcut : i < 2 ^ 31 - 1 ∨ j < 2 ^ 31 - 1
  · refine .inl fun hsame => ?_
    rw [hsame] at hindex
    omega
  · have hmax : Int32.maxValue.toInt = 2 ^ 31 - 1 := rfl
    refine .inr ⟨by omega, Int32.toInt.inj ?_, Int32.toInt.inj ?_⟩ <;> omega

/-- Failures of different rows that are sorted increase, as far as 32 bits can tell their positions
apart. -/
theorem RowFailure.pairwise_index_lt {failures : List RowFailure} {reports : List (Nat × String)}
    {count : Nat} (hnodup : (reports.map Prod.fst).Nodup) (hlt : ∀ r ∈ reports, r.1 < count)
    (hperm : failures.Perm (reports.map fun r => .ofIndex r.1 r.2))
    (hsorted : failures.Pairwise fun a b => a.index ≤ b.index) :
    failures.Pairwise fun a b => a.index < b.index ∨
      2 ^ 31 < count ∧ a.index = Int32.maxValue ∧ b.index = Int32.maxValue := by
  have hdistinct : failures.Pairwise fun a b => a.index ≠ b.index ∨
      2 ^ 31 < count ∧ a.index = Int32.maxValue ∧ b.index = Int32.maxValue := by
    refine (hperm.pairwise_iff fun {a b} hab => ?_).mpr (List.pairwise_map.mpr ?_)
    · exact hab.imp Ne.symm fun ⟨hlong, ha, hb⟩ => ⟨hlong, hb, ha⟩
    · refine (List.pairwise_map.mp hnodup).imp_of_mem fun ha hb hne => ?_
      exact index_ne_or hne (hlt _ ha) (hlt _ hb) _ _
  refine (hsorted.and hdistinct).imp fun {a b} h => h.2.imp_left fun hne => ?_
  exact Int32.lt_of_le_of_ne h.1 hne

namespace Network

variable [HasTopology σ]

/-- What a call has noted after any moves. -/
theorem noted_run {e : Enlister σ} (he : e.registry.Sound) (nodes : List (Node σ)) (state : σ)
    (future : FutureId) (tx : Transaction) (op : Operation) (rows : List Row)
    {options : EnlistOptions σ}
    (hfilter : ∀ f, options.filter = some f → (Message.filter f).Built) (now : Nat)
    (moves : List (Move σ)) {s : Network σ}
    (hs : (start e nodes state future tx op rows options now).run moves = s) :
    Accounted e (.start future tx op rows options now) (rows.mapIdx fun i row => (i, row)) s ∧
      s.call.Noted s.round s.letters := by
  subst hs
  exact run_invariant (P := fun s => Accounted e (.start future tx op rows options now)
      (rows.mapIdx fun i row => (i, row)) s ∧ s.call.Noted s.round s.letters)
    (fun _ m h => ⟨h.1.move (inOrder_mapIdx rows) hfilter m, noted_move h.2 h.1 m⟩)
    ⟨accounted_start he nodes state future tx op rows options now, .mapping rfl (.refl [])⟩
    moves

/-- Failures name the rows of the batch. Let a call of an enlister that has been used in any way
before succeed in any network. Its failures are those in the answers to the requests that were
committed. They are in the order of the rows, each of them has the position of a row of the batch,
and no two of them have the same one. Every row was committed at a
position of a request, whose node has rebuilt the filter of the call and has tried the rows of the
request one by one. If the filter has rejected the row there, then the result has the failure of the
row, with its position in the batch. The reason is the one that the node gives: it names the row by
its position in the request.

Positions have 32 bits, so in a batch that has more rows than that the last failures may share
one. -/
theorem failures_name_rows {e : Enlister σ} (before : List RegistryAction)
    (he : e.registry = before.foldl Registry.perform {}) (nodes : List (Node σ)) (state : σ)
    (future : FutureId) (tx : Transaction) (op : Operation) (rows : List Row)
    {options : EnlistOptions σ}
    (hfilter : ∀ f, options.filter = some f → (Message.filter f).Built) (now : Nat)
    (moves : List (Move σ)) {s : Network σ}
    (hs : (start e nodes state future tx op rows options now).run moves = s)
    {result : EnlistResult} (hphase : s.call.phase = .ended (.ok result)) :
    result.failures.Perm (s.letters.flatMap Letter.failures) ∧
      (result.failures.Pairwise fun a b => a.index < b.index ∨
        2 ^ 31 < rows.length ∧ a.index = Int32.maxValue ∧ b.index = Int32.maxValue) ∧
      (∀ failure ∈ result.failures,
        0 ≤ failure.index.toInt ∧ failure.index.toInt < rows.length) ∧
      ∀ (index : Nat) (row : Row), rows[index]? = some row → ∃ l ∈ s.letters, ∃ p,
        l.committed = true ∧ l.rows[p]? = some (index, row) ∧
        ∃ (n : Node σ) (state : σ) (ctx : ApplyContext σ) (received : List (EnlistedRow σ))
          (staged : Staged),
          l.CarriedOut (.start future tx op rows options now) n state ctx received staged ∧
          ∀ r, n.state.Rejects ctx received state p r →
            .ofIndex index (EnlistError.predicateFailure p).message ∈ result.failures := by
  obtain ⟨haccount, hnoted⟩ := noted_run (he ▸ Registry.sound_foldl_perform before) nodes state
    future tx op rows hfilter now moves hs
  have htallied := haccount.phased.of_finished hphase
  have hshared := htallied.shared
  rw [List.append_nil] at hshared
  obtain ⟨hperm, hsorted⟩ := hnoted.of_finished hphase
  obtain ⟨reports, hreports, hsublist⟩ := Letter.exists_reports haccount.posted
  have hnamed := hreports ▸ hperm
  have hrange : ((s.letters.flatMap Letter.committedRows).map Prod.fst).Perm
      (List.range rows.length) := by
    have horder := inOrder_mapIdx rows
    unfold InOrder at horder
    rw [List.length_mapIdx] at horder
    exact horder ▸ hshared.map Prod.fst
  have hnodup : (reports.map Prod.fst).Nodup :=
    hsublist.nodup (hrange.nodup_iff.mpr List.nodup_range)
  have hlt : ∀ r ∈ reports, r.1 < rows.length := fun r hr =>
    List.mem_range.mp (hrange.mem_iff.mp (hsublist.subset (List.mem_map_of_mem hr)))
  refine ⟨hperm, RowFailure.pairwise_index_lt hnodup hlt hnamed hsorted, fun failure hfailure => ?_,
    fun index row hrow => ?_⟩
  · obtain ⟨r, hr, rfl⟩ := List.mem_map.mp (hnamed.mem_iff.mp hfailure)
    have hbound := hlt r hr
    rw [RowFailure.toInt_index_ofIndex]
    omega
  · have hmem : ((index, row) : IndexedRow) ∈ s.letters.flatMap Letter.committedRows := by
      obtain ⟨hindex, rfl⟩ := List.getElem?_eq_some_iff.mp hrow
      exact hshared.mem_iff.mpr (List.mem_mapIdx.mpr ⟨index, hindex, rfl⟩)
    obtain ⟨l, hl, hrows⟩ := List.mem_flatMap.mp hmem
    unfold Letter.committedRows at hrows
    split at hrows
    · next hcommitted =>
      obtain ⟨p, hp⟩ := List.getElem?_of_mem hrows
      obtain ⟨n, state, ctx, received, staged, hdone⟩ :=
        (haccount.posted l hl).carriedOut hcommitted
      refine ⟨l, hl, p, hcommitted, hp, n, state, ctx, received, staged, hdone, fun r hr => ?_⟩
      obtain ⟨effects, hlines, hfailures⟩ := hdone.reports hcommitted
      obtain ⟨effect, heffect, hreason⟩ := hlines.reports_rejected hr
      have hreported := EnlistResult.mem_reported hp heffect hreason
      refine hperm.mem_iff.mpr (List.mem_flatMap.mpr ⟨l, hl, ?_⟩)
      rw [hfailures]
      exact List.mem_map.mpr ⟨_, hreported, rfl⟩
    · cases hrows

/-- Two keys without entries are to be deleted. The topology changes before the request with the
second one arrives, so it is committed in the next round, as the only row of its request. -/
theorem failures_name_rows_across_remap :
    let view := TopologyView.ofNodes [1, 2] 2
    let moved := view.reassign 1 1
    let loader : ClassLoader TopologyView := .ofRegistrations [] [] []
    let node : NodeId → Node TopologyView := fun id =>
      { id, config := {}, loader, context := .ofCache 1 2 }
    let e : Enlister TopologyView := { id := 3, config := {}, loader, context := .ofCache 1 2 }
    let rows := [Row.key (.int 2), Row.key (.int 0)]
    let first : List (Move TopologyView) :=
      [.event 0 (.map view.readings), .event 0 (.send 0), .event 0 (.send 1), .arrive 0 0,
        .change fun nodes view => (nodes, view.reassign 1 1), .arrive 1 1, .answer 5 0,
        .answer 5 1, .event 5 (.collect 0), .event 5 (.collect 1), .event 5 .close]
    let second : List (Move TopologyView) :=
      [.event 6 (.resume moved), .event 6 (.map moved.readings), .event 6 (.send 0), .arrive 2 0,
        .answer 7 2, .event 7 (.collect 0), .event 7 .close, .event 7 (.map moved.readings)]
    let s := (start e [node 1, node 2] view ⟨7⟩ { lock := ⟨1, 1, 1⟩ } .delete rows
      { filter := some .hasValue } 0).run (first ++ second)
    s.letters.map Letter.committed = [true, false, true] ∧
      ∃ result, s.call.phase = .ended (.ok result) ∧
        result.failures = [⟨0, (EnlistError.predicateFailure 0).message⟩,
          ⟨1, (EnlistError.predicateFailure 0).message⟩] ∧
        ∀ failure ∈ result.failures, 0 ≤ failure.index.toInt ∧ failure.index.toInt < 2 := by
  intro view moved loader node e rows first second s
  have heval : s.letters.map Letter.committed = [true, false, true] ∧
      s.letters.flatMap Letter.failures = [⟨0, (EnlistError.predicateFailure 0).message⟩,
        ⟨1, (EnlistError.predicateFailure 0).message⟩] ∧
      s.call.phase.result?.isSome = true := by decide +kernel
  obtain ⟨hletters, hreports, hended⟩ := heval
  obtain ⟨result, hresult⟩ := Option.isSome_iff_exists.mp hended
  have hphase := Phase.result?_eq_some_iff.mp hresult
  have hfilter : ∀ f, ({ filter := some .hasValue } : EnlistOptions TopologyView).filter = some f →
      (Message.filter f).Built := by
    rintro f hf
    obtain rfl := Option.some.inj hf
    exact .hasValue
  obtain ⟨hperm, hpairwise, hbounds, -⟩ := failures_name_rows (e := e) [] rfl [node 1, node 2] view
    ⟨7⟩ { lock := ⟨1, 1, 1⟩ } .delete rows hfilter 0 (first ++ second) (s := s) rfl hphase
  have hincreasing : result.failures.Pairwise fun a b => a.index < b.index :=
    hpairwise.imp fun hab => hab.resolve_right fun hlong => absurd hlong.1 (by decide)
  rw [hreports] at hperm
  refine ⟨hletters, result, hphase, ?_, hbounds⟩
  refine hperm.eq_of_pairwise (fun a b _ _ hab hba => ?_) hincreasing (by decide)
  exact absurd (Int32.lt_trans hab hba) Int32.lt_irrefl

/-- Three keys without entries are to be deleted, of which one node owns the last two and another
one the first. All three failures have the positions of their rows, and still the reasons name the
rows of the requests: neither of the last two names its row. -/
theorem reasons_name_rows_of_requests :
    let view := TopologyView.ofNodes [1, 2] 16
    let loader : ClassLoader TopologyView := .ofRegistrations [] [] []
    let node : NodeId → Node TopologyView := fun id =>
      { id, config := {}, loader, context := .ofCache 1 16 }
    let e : Enlister TopologyView := { id := 3, config := {}, loader, context := .ofCache 1 16 }
    let rows := [Row.key (.int 1), Row.key (.int 2), Row.key (.int 3)]
    let moves : List (Move TopologyView) :=
      [.event 0 (.map view.readings), .event 0 (.send 0), .event 0 (.send 1), .arrive 0 0, .arrive 1 1,
        .answer 5 0, .answer 5 1, .event 5 (.collect 0), .event 5 (.collect 1), .event 5 .close,
        .event 5 (.map view.readings)]
    let s := (start e [node 1, node 2] view ⟨7⟩ { lock := ⟨1, 1, 1⟩ } .delete rows
      { filter := some .hasValue } 0).run moves
    ∃ result, s.call.phase = .ended (.ok result) ∧
      result.failures.Perm [⟨1, (EnlistError.predicateFailure 0).message⟩,
        ⟨2, (EnlistError.predicateFailure 1).message⟩,
        ⟨0, (EnlistError.predicateFailure 0).message⟩] ∧
      ¬ ∀ failure ∈ result.failures,
        failure.reason = (EnlistError.predicateFailure failure.index.toInt.toNat).message := by
  intro view loader node e rows moves s
  have heval : s.letters.flatMap Letter.failures =
        [⟨1, (EnlistError.predicateFailure 0).message⟩,
          ⟨2, (EnlistError.predicateFailure 1).message⟩,
          ⟨0, (EnlistError.predicateFailure 0).message⟩] ∧
      s.call.phase.result?.isSome = true := by decide +kernel
  obtain ⟨hreports, hended⟩ := heval
  obtain ⟨result, hresult⟩ := Option.isSome_iff_exists.mp hended
  have hphase := Phase.result?_eq_some_iff.mp hresult
  have hfilter : ∀ f, ({ filter := some .hasValue } : EnlistOptions TopologyView).filter = some f →
      (Message.filter f).Built := by
    rintro f hf
    obtain rfl := Option.some.inj hf
    exact .hasValue
  have hsound : e.registry.Sound := Registry.sound_foldl_perform []
  obtain ⟨-, hnoted⟩ := noted_run hsound [node 1, node 2] view ⟨7⟩ { lock := ⟨1, 1, 1⟩ } .delete
    rows hfilter 0 moves (s := s) rfl
  have hperm := (hnoted.of_finished hphase).1
  rw [hreports] at hperm
  refine ⟨result, hphase, hperm, fun hsame => ?_⟩
  have hreason := hsame _ (hperm.mem_iff.mpr List.mem_cons_self)
  revert hreason
  decide

end Network

end Enlistment
