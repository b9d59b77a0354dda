import Enlistment.Proofs.Caller.Moves
import Enlistment.Proofs.Caller.Refusals

/-!
# Screening of batches

A part with a refused row is not sent, but the parts of other nodes are, before or after the row is
found. So a batch that is refused leaves its mark on a node if this owns other rows. What holds is
that no request has a refused row, that a batch with a refused row does not get beyond its first
round, and that nothing goes to the node that owns the row for which the batch is refused. A null
key is found while the batch is mapped, before anything is sent.
-/

namespace Enlistment

open Registry

variable {σ : Type} [HasTopology σ]

/-! ## Parts -/

/-- A part that has ended since a row was refused has such a row. -/
def Screens (e : Enlister σ) (op : Operation) (parts : List Part) : Prop :=
  ∀ part ∈ parts, ∀ err, part.stage = .ended (.error (.marshal err)) →
    ∃ row ∈ part.rows, e.Refuses op row err

/-- A round that is put together without a failure has sent all of its parts, so none of its rows
is refused. -/
theorem Round.flawless {e : Enlister σ} {c : Call σ} {rows : List IndexedRow} {s : Network σ}
    {parts : List Part} {past : List (Letter σ)} {slots : List (Slot σ)}
    (h : Round e c rows s parts past slots) (hposted : ∀ l ∈ s.letters, l.Posted e c)
    {topology : TopologyVersion} {o o' : RoundOutcome}
    (ho : Call.roundOutcome topology o parts = some o') (hsuccess : o'.failure = none) :
    e.Flawless c.op (parts.flatMap Part.rows) := by
  intro row hrow
  obtain ⟨part, hpart, hrow⟩ := List.mem_flatMap.mp hrow
  obtain ⟨index, hindex⟩ := List.getElem?_of_mem hpart
  obtain ⟨letter, hslot⟩ := h.exists_slot hindex
  obtain ⟨outcome, hended, hretriable⟩ := RoundOutcome.ended_of_success ho hsuccess part hpart
  have hsent : ∀ l, letter = some l → l.For s.round index part →
      ∀ err, ¬e.Refuses c.op row err := by
    rintro l rfl hfor
    exact (hposted l (h.mem_of_slot hslot)).flawless row (hfor.rows_eq ▸ hrow)
  cases h.kept index _ hslot with
  | planned hstage =>
    rw [hstage] at hended
    cases hended
  | awaited hstage hfor _ => exact hsent _ rfl hfor
  | unsent hstage herr =>
    rw [hstage] at hended
    obtain rfl := PartStage.ended.inj hended
    cases herr.isRetriable.symm.trans (hretriable _ rfl)
  | ended _ hfor _ => exact hsent _ rfl hfor

/-! ## Phases -/

/-- The first round of a batch, mapped on what was read of the topology: the requests go to the
nodes of the parts. -/
structure FirstRound (e : Enlister σ) (rows : List IndexedRow) (s : Network σ) (parts : List Part)
    (seen : Readings) : Prop where
  round : s.round = 0
  groups : groupRows e.context seen.views rows [] =
    .ok (parts.map fun part => (part.node, part.rows))
  sent : ∀ l ∈ s.letters, (parts.map Part.node)[l.dispatch.index]? = some l.dispatch.node

/-- A row of a batch is refused for a reason, and the requests of the call have gone to the owners
of their rows as they were read, all of them to other nodes than the owner of this row. -/
def Blames (e : Enlister σ) (op : Operation) (rows : List IndexedRow) (seen : Readings)
    (letters : List (Letter σ)) (err : MarshalError) : Prop :=
  ∃ row ∈ rows, e.Refuses op row err ∧ ∀ l ∈ letters,
    (seen.views row.1).primary (e.context.partitionOfValue row.2.keyValue) ≠
      some l.dispatch.node ∧
    l.rows ≠ [] ∧ ∀ row' ∈ l.rows,
      row' ∈ rows ∧ e.context.ownedBy (seen.views row'.1) l.dispatch.node row' = true

/-- Where a call stands, as far as refusals are concerned: a batch with a refused row is still in
its first round, or has been refused. -/
inductive Screened (e : Enlister σ) (op : Operation) (rows : List IndexedRow)
    (readings : Readings → Prop) (s : Network σ) : Prop
  | fresh (hphase : s.call.phase = .mapping) (hround : s.round = 0)
      (houtstanding : s.call.outstanding = rows) (hletters : s.letters = [])
  | exchanging {version : TopologyVersion} {parts : List Part}
      (hphase : s.call.phase = .exchanging version parts)
      (h : Screens e op parts)
      (hround : (∃ seen, readings seen ∧ FirstRound e rows s parts seen) ∨ e.Flawless op rows)
  | between (hphase : s.call.phase = .mapping ∨ ∃ requested current mini giveUpAt,
        s.call.phase = .remapping requested current mini giveUpAt)
      (h : e.Flawless op rows)
  | ended {outcome : Except EnlistError EnlistResult} (hphase : s.call.phase = .ended outcome)
      (hsent : s.letters = [] ∨ ∀ row ∈ rows, row.2.keyValue.isNull = false)
      (h : ∀ err, outcome = .error (.marshal err) →
        ∃ seen, readings seen ∧ Blames e op rows seen s.letters err)

omit [HasTopology σ] in
/-- Rows that are not refused have keys. -/
theorem Enlister.Flawless.keyValue {e : Enlister σ} {op : Operation} {rows : List IndexedRow}
    (h : e.Flawless op rows) : ∀ row ∈ rows, row.2.keyValue.isNull = false := by
  intro row hrow
  cases hnull : row.2.keyValue.isNull with
  | false => rfl
  | true => exact absurd (e.refuses_nullKey op hnull) (h row hrow _)

section

variable {e : Enlister σ} {c : Call σ} {rows : List IndexedRow} {readings : Readings → Prop}
  {s : Network σ} {version : TopologyVersion} {parts : List Part} {index : Nat} {part : Part}

/-- The settings of the caller are those with which the call has started. -/
theorem Accounted.context_eq (h : Accounted e c rows s) : s.enlister.context = e.context := by
  obtain ⟨registry, nextMini, nextMessageId, henlister⟩ := h.enlister
  rw [henlister]

namespace FirstRound

variable {seen : Readings}

omit [HasTopology σ] in
/-- The rows of the parts are those of the batch that their nodes own. -/
theorem rows_eq (h : FirstRound e rows s parts seen) (hpart : part ∈ parts) :
    part.rows = rows.filter fun row => e.context.ownedBy (seen.views row.1) part.node row :=
  (groupRows_owned h.groups).2.1 (part.node, part.rows) (List.mem_map.mpr ⟨part, hpart, rfl⟩)

omit [HasTopology σ] in
/-- The parts of the first round are the same at other stages. -/
theorem of_parts (h : FirstRound e rows s parts seen) {s' : Network σ} {parts' : List Part}
    (hround : s'.round = s.round) (hletters : s'.letters = s.letters)
    (hparts : parts'.map (fun part => (part.node, part.rows)) =
      parts.map fun part => (part.node, part.rows)) : FirstRound e rows s' parts' seen := by
  have hnodes : parts'.map Part.node = parts.map Part.node := by
    have hfirst := congrArg (List.map Prod.fst) hparts
    simpa only [List.map_map, Function.comp_def] using hfirst
  refine ⟨hround.trans h.round, hparts ▸ h.groups, ?_⟩
  rw [hletters, hnodes]
  exact h.sent

/-- If a part is refused then the owner of its refused row has been sent nothing, and each request
has gone to the owner of its rows. -/
theorem blames (h : FirstRound e rows s parts seen) (haccount : Accounted e c rows s)
    (hphase : s.call.phase = .exchanging version parts) (hpart : part ∈ parts) {row : IndexedRow}
    (hrow : row ∈ part.rows) {err : MarshalError} (hrefused : e.Refuses c.op row err) :
    Blames e c.op rows seen s.letters err := by
  obtain ⟨past, slots, hround⟩ := haccount.phased.of_exchanging hphase
  have howned := hrow
  rw [h.rows_eq hpart] at howned
  obtain ⟨hmem, howner⟩ := List.mem_filter.mp howned
  refine ⟨row, hmem, hrefused, fun l hl => ?_⟩
  rcases hround.mem_letters hl with hpast | ⟨index, part', hslot, hfor⟩
  · have hearlier := hround.earlier l hpast
    rw [h.round] at hearlier
    exact absurd hearlier (Nat.not_lt_zero _)
  · have hindex := hround.part_of_slot hslot
    have hpart' := List.mem_of_getElem? hindex
    have hnode : part'.node = l.dispatch.node := by
      have hsent := h.sent l hl
      rw [hfor.index_eq, List.getElem?_map, hindex] at hsent
      exact Option.some.inj hsent
    have hrows := h.rows_eq hpart'
    rw [← hfor.rows_eq, hnode] at hrows
    refine ⟨fun hsame => ?_, ?_, fun row' hrow' => ?_⟩
    · -- the request would have the refused row
      have hrow' : row ∈ l.rows := by
        rw [hrows]
        exact List.mem_filter.mpr ⟨hmem, by rw [MarshalContext.ownedBy, hsame]; exact BEq.rfl⟩
      exact (haccount.posted l hl).flawless row hrow' err hrefused
    · rw [hfor.rows_eq]
      exact groupRows_ne_nil (fun _ hnone => by cases hnone) h.groups (part'.node, part'.rows)
        (List.mem_map.mpr ⟨part', hpart', rfl⟩)
    · rw [hrows] at hrow'
      exact (List.mem_filter.mp hrow' :)

end FirstRound

namespace Screened

omit [HasTopology σ] in
/-- A call that exchanges screens its parts. It is in its first round, or no row is refused. -/
theorem of_exchanging {op : Operation} (h : Screened e op rows readings s)
    (hexchanging : s.call.phase = .exchanging version parts) :
    Screens e op parts ∧
      ((∃ seen, readings seen ∧ FirstRound e rows s parts seen) ∨ e.Flawless op rows) := by
  cases h with
  | exchanging hphase h hround =>
    cases hphase.symm.trans hexchanging
    exact ⟨h, hround⟩
  | between hphase _ =>
    rcases hphase with hphase | ⟨_, _, _, _, hphase⟩ <;> cases hphase.symm.trans hexchanging
  | _ hphase => cases hphase.symm.trans hexchanging

omit [HasTopology σ] in
/-- No batch with a null key is mapped. -/
theorem keyValue_of_exchanging {op : Operation} (h : Screened e op rows readings s)
    (hexchanging : s.call.phase = .exchanging version parts) :
    ∀ row ∈ rows, row.2.keyValue.isNull = false := by
  rcases (h.of_exchanging hexchanging).2 with ⟨seen, -, hfirst⟩ | hflawless
  · exact keyValue_of_groupRows hfirst.groups
  · exact hflawless.keyValue

/-! ## What the call does -/

/-- Mapping finds null keys, and all others stay as they are. -/
theorem mapRound (h : Screened e c.op rows readings s) (haccount : Accounted e c rows s)
    (hphase : s.call.phase = .mapping) {seen : Readings} (hseen : readings seen) :
    Screened e c.op rows readings (s.take (none, s.call.mapRound s.enlister seen)) := by
  have hrows : ∀ row ∈ s.call.outstanding, row ∈ rows := fun row hrow =>
    (haccount.phased.of_mapping hphase).1.shared.mem_iff.mp (List.mem_append_right _ hrow)
  -- a batch that goes on to be mapped has not been sent, or nothing of it is refused
  obtain ⟨hfresh, hnew⟩ : ((s.round = 0 ∧ s.call.outstanding = rows ∧ s.letters = []) ∨
      e.Flawless c.op rows) ∧
      (s.letters = [] ∨ ∀ row ∈ rows, row.2.keyValue.isNull = false) := by
    cases h with
    | fresh _ hround houtstanding hletters =>
      exact ⟨.inl ⟨hround, houtstanding, hletters⟩, .inl hletters⟩
    | between _ h => exact ⟨.inr h, .inr h.keyValue⟩
    | exchanging hphase' => cases hphase'.symm.trans hphase
    | ended hphase' => cases hphase'.symm.trans hphase
  rw [s.take_mapRound]
  unfold Call.mapRound
  split
  · exact .ended rfl hnew fun err herr => by cases herr
  · split
    · next err enlister hmap =>
      refine .ended rfl hnew fun cause hcause => ⟨seen, hseen, ?_⟩
      obtain rfl := Except.error.inj hcause
      have hgroups : groupRows s.enlister.context seen.views s.call.outstanding [] =
          .error (.marshal cause) := by
        unfold Enlister.mapRows at hmap
        split at hmap
        · next herr => rw [herr, Except.error.inj (Prod.mk.inj hmap).1]
        · cases hmap
      rw [haccount.context_eq] at hgroups
      obtain ⟨row, hrow, hrefused⟩ := e.refuses_of_groupRows c.op hgroups
      rcases hfresh with ⟨-, -, hletters⟩ | hflawless
      · refine ⟨row, hrows row hrow, hrefused, fun l hl => ?_⟩
        simp only [hletters] at hl
        cases hl
      · exact absurd hrefused (hflawless row (hrows row hrow) cause)
    · next parts enlister hmap =>
      obtain ⟨-, -, hplanned, -⟩ := Enlister.mapRows_ok hmap
      refine .exchanging rfl (fun part hpart err hended => ?_) (hfresh.imp_left ?_)
      · cases (hplanned part hpart).symm.trans hended
      rintro ⟨hround, houtstanding, hletters⟩
      have hgroups := Enlister.mapRows_groups hmap
      rw [haccount.context_eq, houtstanding] at hgroups
      refine ⟨seen, hseen, hround, hgroups, fun l hl => ?_⟩
      simp only [hletters] at hl
      cases hl

omit [HasTopology σ] in
/-- A part is at another stage, and has a refused row if it has ended for one. -/
theorem setStage {op : Operation} (h : Screened e op rows readings s)
    (hphase : s.call.phase = .exchanging version parts) (hpart : parts[index]? = some part)
    (enlister : Enlister σ) {stage : PartStage}
    (hrefused : ∀ err, stage = .ended (.error (.marshal err)) →
      ∃ row ∈ part.rows, e.Refuses op row err) :
    Screened e op rows readings (s.take (none, s.call.setStage index stage, enlister)) := by
  obtain ⟨hscreens, hkind⟩ := h.of_exchanging hphase
  rw [s.take_setStage, Call.setStage_eq hphase hpart]
  refine .exchanging rfl (fun part' hpart' err hended => ?_) (hkind.imp_left ?_)
  · rcases List.mem_or_eq_of_mem_set hpart' with hold | rfl
    · exact hscreens part' hold err hended
    · exact hrefused err hended
  · rintro ⟨seen, hseen, hfirst⟩
    exact ⟨seen, hseen, hfirst.of_parts rfl rfl (map_set_of_getElem? hpart rfl)⟩

/-- A part is sent, unless one of its rows is refused. -/
theorem sendPart (h : Screened e c.op rows readings s) (haccount : Accounted e c rows s)
    (hphase : s.call.phase = .exchanging version parts) (hpart : parts[index]? = some part)
    (now : Nat) :
    Screened e c.op rows readings (s.take (s.call.sendPart s.enlister now version index part)) := by
  obtain ⟨registry, nextMessageId, -, hresult⟩ :=
    s.take_sendPart hphase hpart haccount.sound now
  rcases hresult with ⟨err, limitMs, -, hdispatch, htake⟩ | ⟨rx, limitMs, payload, -, -, htake⟩ <;>
    rw [htake]
  · refine h.setStage hphase hpart _ fun cause hcause => ?_
    obtain rfl := Except.error.inj (PartStage.ended.inj hcause)
    have hencoded := Enlister.encodeRequest_of_dispatch hdispatch
    obtain ⟨row, hrow, hrefused⟩ :=
      Enlister.refuses_of_encodeRequest (congrArg some haccount.op) rfl hencoded
    refine ⟨row, hrow, ?_⟩
    rwa [Enlister.Refuses, haccount.context_eq] at hrefused
  · have hnext : Screened e c.op rows readings (s.take (none,
        s.call.setStage index (.sent rx now limitMs),
        { s.enlister with registry, nextMessageId })) :=
      h.setStage hphase hpart _ fun err herr => by cases herr
    rw [s.take_setStage, Call.setStage_eq hphase hpart] at hnext ⊢
    obtain ⟨hscreens, hkind⟩ := hnext.of_exchanging rfl
    refine .exchanging rfl hscreens (hkind.imp_left ?_)
    rintro ⟨seen, hseen, hfirst⟩
    refine ⟨seen, hseen, hfirst.round, hfirst.groups, fun l hl => ?_⟩
    rcases List.mem_append.mp hl with hl | hl
    · exact hfirst.sent l hl
    · rw [List.mem_singleton.mp hl,
        map_set_of_getElem? hpart (y := { part with stage := .sent rx now limitMs }) rfl,
        List.getElem?_map, hpart]
      rfl

/-- The outcome that is taken from a receiver is not that a row was refused. -/
theorem collect (h : Screened e c.op rows readings s) (haccount : Accounted e c rows s)
    (hphase : s.call.phase = .exchanging version parts) (hpart : parts[index]? = some part)
    {rx : Nat} (hsettled : part.stage = .settled rx) {outcome : Delivery} {enlister : Enlister σ}
    (hcollect : s.enlister.collect (s.call.future, part.mini) rx = (some outcome, enlister)) :
    Screened e c.op rows readings
      (s.take (none, s.call.setStage index (.ended outcome), enlister)) := by
  have hwaits : part.stage.receiver? = some rx := by rw [hsettled]; rfl
  obtain ⟨past, slots, hround⟩ := haccount.phased.of_exchanging hphase
  obtain ⟨letter, hslot⟩ := hround.exists_slot hpart
  obtain ⟨l, -, -, htold⟩ := hround.collected hslot hwaits hcollect
  refine h.setStage hphase hpart enlister fun err herr => ?_
  obtain rfl := PartStage.ended.inj herr
  rcases htold with ⟨cause, hcause, hunanswered⟩ | ⟨bytes, -, hread⟩
  · obtain rfl := Except.error.inj hcause
    exact hunanswered.elim
  · rcases Enlister.readReply_error hread with ⟨cause, hcause⟩ | ⟨cause, hcause⟩ <;> cases hcause

omit [HasTopology σ] in
/-- The enlister makes no difference to where a call stands. -/
theorem with_enlister {op : Operation} (h : Screened e op rows readings s) (enlister : Enlister σ) :
    Screened e op rows readings { s with enlister } := by
  cases h with
  | fresh hphase hround houtstanding hletters =>
    exact .fresh hphase hround houtstanding hletters
  | exchanging hphase h hround =>
    refine .exchanging hphase h (hround.imp_left ?_)
    rintro ⟨seen, hseen, hfirst⟩
    exact ⟨seen, hseen, hfirst.of_parts rfl rfl rfl⟩
  | between hphase h => exact .between hphase h
  | ended hphase hsent h => exact .ended hphase hsent h

/-- A round that ends without a failure shows that no row is refused. -/
theorem closeRound (h : Screened e c.op rows readings s) (haccount : Accounted e c rows s)
    (hphase : s.call.phase = .exchanging version parts) {o : RoundOutcome}
    (ho : Call.roundOutcome version { result := s.call.result } parts = some o) (now : Nat) :
    Screened e c.op rows readings
      (s.take (none, s.call.closeRound s.enlister now version parts o)) := by
  obtain ⟨past, slots, hround⟩ := haccount.phased.of_exchanging hphase
  obtain ⟨hscreens, hkind⟩ := h.of_exchanging hphase
  have hkeys := h.keyValue_of_exchanging hphase
  have hflawless : o.failure = none → e.Flawless c.op rows := by
    intro hsuccess row hrow
    rcases List.mem_append.mp (hround.tallied.shared.mem_iff.mpr hrow) with hpast | hpart
    · obtain ⟨l, hl, hcommitted⟩ := List.mem_flatMap.mp hpast
      have hmem := hround.letters.mem_iff.mpr (List.mem_append_left _ hl)
      unfold Letter.committedRows at hcommitted
      split at hcommitted
      · exact (haccount.posted l hmem).flawless row hcommitted
      · cases hcommitted
    · exact hround.flawless haccount.posted ho hsuccess row hpart
  rw [Network.take_none]
  unfold Call.closeRound
  dsimp only
  split
  · next err hfailure =>
    refine .ended rfl (.inr hkeys) fun cause hcause => ?_
    obtain rfl := Except.error.inj hcause
    obtain ⟨part, hpart, hended⟩ :=
      (RoundOutcome.ended_of_failure ho hfailure).resolve_left fun hnone => by cases hnone
    obtain ⟨row, hrow, hrefused⟩ := hscreens part hpart cause hended
    rcases hkind with ⟨seen, hseen, hfirst⟩ | hall
    · exact ⟨seen, hseen, hfirst.blames haccount hphase hpart hrow hrefused⟩
    · have hmem := hround.tallied.shared.mem_iff.mp
        (List.mem_append_right _ (List.mem_flatMap.mpr ⟨part, hpart, hrow⟩))
      exact absurd hrefused (hall row hmem cause)
  · next hfailure _ => exact .between (.inl rfl) (hflawless hfailure)
  · next current mini hfailure _ =>
    split
    · exact .ended rfl (.inr hkeys) fun cause hcause => by cases hcause
    · exact .between (.inr ⟨_, _, _, _, rfl⟩) (hflawless hfailure)

omit [HasTopology σ] in
/-- A batch for which a remap was asked has no row that is refused. -/
theorem of_remapping (h : Screened e c.op rows readings s) {requested current : TopologyVersion}
    {mini : MiniId} {giveUpAt : Nat}
    (hremapping : s.call.phase = .remapping requested current mini giveUpAt) :
    e.Flawless c.op rows := by
  cases h with
  | between _ h => exact h
  | _ hphase => cases hphase.symm.trans hremapping

omit [HasTopology σ] in
/-- Giving up is for no reason that names a row. -/
theorem abandon (h : e.Flawless c.op rows) (now : Nat) (requested current : TopologyVersion)
    (mini : MiniId) :
    Screened e c.op rows readings
      (s.take (none, s.call.abandon s.enlister now requested current mini)) := by
  rw [Network.take_none]
  unfold Call.abandon
  split <;> exact .ended rfl (.inr h.keyValue) fun cause hcause => by cases hcause

/-! ## Runs -/

/-- Every event of the call, in the phase in which it can happen. -/
theorem advance (h : Screened e c.op rows readings s) (haccount : Accounted e c rows s) (now : Nat)
    {event : Event} (hreadings : ∀ seen, event = .map seen → readings seen) :
    Screened e c.op rows readings (s.advance now event) := by
  have heffect := s.call.step_effect s.enlister now event
  unfold Network.advance
  generalize s.call.step s.enlister now event = r at heffect ⊢
  cases heffect with
  | idle =>
    rw [s.take_idle]
    exact h
  | @map seen hphase => exact h.mapRound haccount hphase (hreadings seen rfl)
  | send hphase hpart _ => exact h.sendPart haccount hphase hpart now
  | settle hphase hpart _ => exact h.setStage hphase hpart _ fun err herr => by cases herr
  | collect hphase hpart hsettled hcollect =>
    exact h.collect haccount hphase hpart hsettled hcollect
  | close hphase ho => exact h.closeRound haccount hphase ho now
  | resume hphase _ =>
    rw [Network.take_none]
    exact .between (.inl rfl) (h.of_remapping hphase)
  | giveUp hphase _ => exact abandon (h.of_remapping hphase) now _ _ _

omit [HasTopology σ] in
/-- A request that reaches its node is still the request that was sent. -/
theorem arrive (h : Screened e c.op rows readings s) {i : Nat} {l : Letter σ}
    (hl : s.letters[i]? = some l) (arrival : Node σ × σ) (nodes : List (Node σ)) (state : σ) :
    Screened e c.op rows readings { s with
      nodes, state, letters := s.letters.set i { l with arrival := some arrival } } := by
  have hmem := List.mem_of_getElem? hl
  have hsame : ∀ l' ∈ s.letters.set i { l with arrival := some arrival }, ∃ old ∈ s.letters,
      l'.dispatch = old.dispatch ∧ l'.rows = old.rows := by
    intro l' hl'
    rcases List.mem_or_eq_of_mem_set hl' with hl' | rfl
    · exact ⟨l', hl', rfl, rfl⟩
    · exact ⟨l, hmem, rfl, rfl⟩
  cases h with
  | fresh _ _ _ hletters =>
    rw [hletters] at hmem
    cases hmem
  | exchanging hphase h hround =>
    refine .exchanging hphase h (hround.imp_left ?_)
    rintro ⟨seen, hseen, hfirst⟩
    refine ⟨seen, hseen, hfirst.round, hfirst.groups, fun l' hl' => ?_⟩
    obtain ⟨old, hold, hdispatch, -⟩ := hsame l' hl'
    rw [hdispatch]
    exact hfirst.sent old hold
  | between hphase h => exact .between hphase h
  | ended hphase hsent h =>
    refine .ended hphase (.inr (hsent.resolve_left fun hnone => ?_)) fun err herr => ?_
    · rw [hnone] at hmem
      cases hmem
    · obtain ⟨seen, hseen, row, hrow, hrefused, hall⟩ := h err herr
      refine ⟨seen, hseen, row, hrow, hrefused, fun l' hl' => ?_⟩
      obtain ⟨old, hold, hdispatch, hrows⟩ := hsame l' hl'
      rw [hdispatch, hrows]
      exact hall old hold

/-- Every move keeps a call where it may be. -/
theorem move (h : Screened e c.op rows readings s) (haccount : Accounted e c rows s) (m : Move σ)
    (hreadings : ∀ now seen, m = .event now (.map seen) → readings seen) :
    Screened e c.op rows readings (s.move m) := by
  refine s.move_cases m h (fun now event _ hcause => ?_)
    (fun _ _ arrival nodes state hl _ => h.arrive hl arrival nodes state) (fun nodes state => ?_)
    fun action nextMini nextMessageId _ => ?_
  · refine h.advance haccount now fun seen hseen => hreadings now seen ?_
    subst hseen
    exact hcause.resolve_left nofun
  · cases h with
    | fresh hphase hround houtstanding hletters =>
      exact .fresh hphase hround houtstanding hletters
    | exchanging hphase h hround =>
      refine .exchanging hphase h (hround.imp_left ?_)
      rintro ⟨seen, hseen, hfirst⟩
      exact ⟨seen, hseen, hfirst.of_parts rfl rfl rfl⟩
    | between hphase h => exact .between hphase h
    | ended hphase hsent h => exact .ended hphase hsent h
  · exact h.with_enlister _

end Screened

end

end Enlistment
