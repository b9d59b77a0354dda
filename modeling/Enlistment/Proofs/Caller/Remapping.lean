import Enlistment.Proofs.Caller.ExactlyOnce
import Enlistment.Proofs.Caller.RequestErrors
import Mathlib.Data.List.Flatten
import Mathlib.Data.List.Nodup

/-!
# Bounds on remapping

A call goes round after round as long as nodes ask for remaps. What it does on the way is kept in a
chronicle beside it: the rows that it maps, the requests that it sends, the rounds that it closes
and the waits for another topology. The number of rounds is bounded by the remaps that the
configuration admits, the last of them decides whether the call fails for its remaps, and nothing is
waited for beyond the deadline of the transaction. Only the greatest limit that can be configured is
out of the reach of the counter of remaps, which wraps around there.
-/

namespace Enlistment

variable {σ : Type}

/-! ## Verdicts on a round -/

/-- The error that a part has come to in its round. -/
def Part.error? (part : Part) (topology : TopologyVersion) : Option EnlistError :=
  match part.stage with
  | .ended outcome =>
    match outcome.bind fun response => response.toResult topology with
    | .ok _ => none
    | .error e => some e
  | _ => none

/-- Whether a part is to be mapped again. -/
def Part.asksRemap (part : Part) (topology : TopologyVersion) : Bool :=
  (part.error? topology).any fun e => e.isRetriable

/-- Whether a part has failed. -/
def Part.fails (part : Part) (topology : TopologyVersion) : Bool :=
  (part.error? topology).any fun e => !e.isRetriable

namespace RoundOutcome

variable {topology : TopologyVersion} {o o' : RoundOutcome} {part : Part} {outcome : Delivery}

/-- What one part adds to the outcome of its round. -/
theorem add_verdict (o : RoundOutcome) (topology : TopologyVersion)
    (hstage : part.stage = .ended outcome) :
    (o.add topology part outcome).remap.isSome = (o.remap.isSome || part.asksRemap topology) ∧
      (o.add topology part outcome).failure.isSome =
        (o.failure.isSome || part.fails topology) ∧
      (o.add topology part outcome).outstanding =
        o.outstanding ++ if part.asksRemap topology then part.rows else [] := by
  unfold add Part.asksRemap Part.fails Part.error?
  rw [hstage]
  dsimp only
  split
  · next hok => simp [hok]
  · next requested current hremap =>
    have hasked := Option.isSome_iff_ne_none.mpr (askRemap_ne_none (current, part.mini) o.remap)
    simp [hremap, hasked, EnlistError.isRetriable]
  · next e hother hfailed =>
    have hfinal : e.isRetriable = false := by
      cases e with
      | topologyMismatch requested current => exact (hother requested current rfl).elim
      | _ => rfl
    simp [hfailed, hfinal]

/-- A round asks for a remap if one of its parts does, and fails if one of them does. Outstanding
are the rows of the parts that ask for a remap. -/
theorem roundOutcome_verdict {parts : List Part}
    (ho : Call.roundOutcome topology o parts = some o') :
    o'.remap.isSome = (o.remap.isSome || parts.any (·.asksRemap topology)) ∧
      o'.failure.isSome = (o.failure.isSome || parts.any (·.fails topology)) ∧
      o'.outstanding =
        o.outstanding ++ (parts.filter (·.asksRemap topology)).flatMap Part.rows := by
  induction parts generalizing o with
  | nil =>
    obtain rfl := Option.some.inj ho
    simp
  | cons part rest ih =>
    unfold Call.roundOutcome at ho
    split at ho
    · next outcome hstage =>
      obtain ⟨hremap, hfailure, hrows⟩ := add_verdict o topology hstage
      obtain ⟨hremap', hfailure', hrows'⟩ := ih ho
      refine ⟨?_, ?_, ?_⟩
      · rw [hremap', hremap, List.any_cons, Bool.or_assoc]
      · rw [hfailure', hfailure, List.any_cons, Bool.or_assoc]
      · rw [hrows', hrows, List.filter_cons]
        split <;> simp
    · cases ho

/-- What is outstanding after a round are rows of its parts. -/
theorem outstanding_sublist {parts : List Part}
    (ho : Call.roundOutcome topology o parts = some o') (hnone : o.outstanding = []) :
    o'.outstanding.Sublist (parts.flatMap Part.rows) := by
  obtain ⟨-, -, hrows⟩ := roundOutcome_verdict ho
  rw [hrows, hnone, List.nil_append]
  exact List.filter_sublist.flatMap Part.rows

/-- Nothing is outstanding after a round without a remap. -/
theorem outstanding_eq_nil {parts : List Part}
    (ho : Call.roundOutcome topology o parts = some o') (hnone : o.outstanding = [])
    (hremap : o'.remap = none) : o'.outstanding = [] := by
  obtain ⟨hasked, -, hrows⟩ := roundOutcome_verdict ho
  rw [hremap, Option.isSome_none, eq_comm, Bool.or_eq_false_iff, List.any_eq_false] at hasked
  rw [hrows, hnone, List.filter_eq_nil_iff.mpr hasked.2]
  rfl

end RoundOutcome

/-- A call ends with one error. -/
theorem Phase.ended_error_inj {err err' : EnlistError}
    (h : Phase.ended (.error err) = .ended (.error err')) : err = err' :=
  Except.error.inj (Phase.ended.inj h)

/-! ## Chronicles -/

/-- A limit in milliseconds that something was started with. -/
structure Timer where
  start : Nat
  limitMs : Nat
  deriving DecidableEq, Repr

/-- A limit is not beyond the time that is left before a deadline. -/
def Timer.Within (timer : Timer) (deadline : Option Nat) : Prop :=
  ∀ due, deadline = some due → timer.limitMs ≤ due - timer.start

/-- A round whose parts have all ended. -/
structure Closing where
  topology : TopologyVersion
  parts : List Part

/-- Whether a round has come to a remap and nothing in it has failed. -/
def Closing.remapped (closing : Closing) : Bool :=
  closing.parts.any (·.asksRemap closing.topology) &&
    !closing.parts.any (·.fails closing.topology)

/-- The outcome of a round tells whether it has come to a remap and nothing has failed. -/
theorem Closing.remapped_eq {topology : TopologyVersion} {o o' : RoundOutcome} {parts : List Part}
    (ho : Call.roundOutcome topology o parts = some o') (hremap : o.remap = none)
    (hfailure : o.failure = none) :
    (Closing.mk topology parts).remapped = (o'.remap.isSome && !o'.failure.isSome) := by
  obtain ⟨hremap', hfailure', -⟩ := RoundOutcome.roundOutcome_verdict ho
  rw [hremap', hfailure', hremap, hfailure, Option.isSome_none, Option.isSome_none, Bool.false_or,
    Bool.false_or, remapped]

/-- What a call has done so far. -/
structure Chronicle where
  /-- The rows of each round. -/
  rounds : List (List IndexedRow) := []
  /-- The rows of each request that was sent, and the limit of its exchange. -/
  requests : List (List IndexedRow × Timer) := []
  closings : List Closing := []
  /-- The limits of the waits for another topology. -/
  waits : List Timer := []

namespace Chronicle

/-- The rows that were sent, as often as they were. -/
def sentRows (c : Chronicle) : List IndexedRow := c.requests.flatMap Prod.fst

/-- The limits of all that was waited for. -/
def timers (c : Chronicle) : List Timer := c.requests.map Prod.snd ++ c.waits

/-- The counter of remaps can pass the limit, or has not wrapped around yet. -/
def HasRoom (limit : UInt32) (c : Chronicle) : Prop :=
  limit.toNat + 1 < UInt32.size ∨ c.waits.length < UInt32.size

/-- A counter of remaps tells the rounds that were closed and the waits in between. -/
structure Counts (limit attempt : UInt32) (c : Chronicle) : Prop where
  closings : c.closings.length = attempt.toNat
  waits : c.waits.length = attempt.toNat
  le : attempt.toNat ≤ limit.toNat

/-- The chronicle of a call after one more event at a time. A round starts when rows leave the
mapping and is over when the exchanging ends. -/
def record (c : Chronicle) (before : Call σ) (now : Nat) (dispatch : Option Dispatch)
    (after : Call σ) : Chronicle :=
  match before.phase, after.phase with
  | .mapping, .mapping => c
  | .mapping, _ =>
    if before.outstanding.isEmpty then c else { c with rounds := c.rounds ++ [before.outstanding] }
  | .exchanging _ _, .exchanging _ parts =>
    match dispatch.bind fun dispatch => parts[dispatch.index]? with
    | some ⟨_, _, rows, .sent _ sentAt limitMs⟩ =>
      { c with requests := c.requests ++ [(rows, ⟨sentAt, limitMs⟩)] }
    | _ => c
  | .exchanging topology parts, .remapping _ _ _ giveUpAt =>
    { c with
      closings := c.closings ++ [⟨topology, parts⟩]
      waits := c.waits ++ [⟨now, giveUpAt - now⟩] }
  | .exchanging topology parts, _ => { c with closings := c.closings ++ [⟨topology, parts⟩] }
  | _, _ => c

/-- The chronicle after a move beside others. -/
def after (c : Chronicle) (s : Session σ) : Session.Move → Chronicle
  | .event now event =>
    let r := s.call.step s.enlister now event
    c.record s.call now r.1 r.2.1
  | .beside .. => c

variable {c : Chronicle} {call : Call σ}

/-- An event that does not fit the state of the call is not recorded. -/
theorem record_idle (c : Chronicle) (call : Call σ) (now : Nat) :
    c.record call now none call = c := by
  unfold record
  cases call.phase <;> rfl

/-- A part that goes on to another stage without sending anything is not recorded. -/
theorem record_silent {topology : TopologyVersion} {parts parts' : List Part} {now : Nat}
    {call' : Call σ} (hphase : call.phase = .exchanging topology parts)
    (hphase' : call'.phase = .exchanging topology parts') :
    c.record call now none call' = c := by
  simp only [record, hphase, hphase', Option.bind_none]

end Chronicle

/-- How a phase stands with the limit of the remaps. -/
structure Phase.Limited (limit : UInt32) (phase : Phase) (c : Chronicle) :
    Prop where
  /-- The greatest limit is never exceeded. -/
  exceeded : ∀ n, phase = .ended (.error (.remapLimit n)) → limit.toNat + 1 < UInt32.size
  /-- The call has failed for its remaps if the last round that the limit admits came to one without
  a failure, and only then. -/
  exact : c.HasRoom limit → ∀ n, phase = .ended (.error (.remapLimit n)) ↔
    n = limit ∧ ∃ closing, c.closings[limit.toNat]? = some closing ∧ closing.remapped = true

/-- The chronicle of a run that goes on from another one. -/
def Session.chronicle : Session σ → Chronicle → List Move → Chronicle
  | _, c, [] => c
  | s, c, m :: rest => (s.move m).chronicle (c.after s m) rest

/-! ## Rows on their way -/

/-- The rows of a part that is still to be sent. -/
def Part.unsent (part : Part) : List IndexedRow :=
  match part.stage with
  | .planned => part.rows
  | _ => []

/-- No row of a planned part has been sent. -/
theorem Part.unsent_of_planned {part : Part} (h : part.stage = .planned) :
    part.unsent = part.rows := by
  rw [unsent, h]

/-- The rows that are still to be sent in the round that a call is in. -/
def Phase.unsent (phase : Phase) : List IndexedRow := phase.parts.flatMap Part.unsent

namespace Call

variable {call : Call σ} {topology : TopologyVersion} {parts : List Part} {index : Nat}
  {part : Part} {stage : PartStage}

/-- The rows that a call works on: those of its round, or those that are outstanding. -/
def held (call : Call σ) : List IndexedRow :=
  match call.phase with
  | .exchanging _ parts => parts.flatMap Part.rows
  | _ => call.outstanding

/-- Another stage of a part leaves the rows in hand with the call. -/
theorem held_setStage (hphase : call.phase = .exchanging topology parts)
    (hpart : parts[index]? = some part) (stage : PartStage) :
    (call.setStage index stage).held = call.held := by
  rw [setStage_eq hphase hpart]
  simp only [held, hphase, List.flatMap]
  exact congrArg List.flatten (map_set_of_getElem? hpart rfl)

/-- A part that is not planned any more is taken out of the rows that are still to be sent. -/
theorem unsent_setStage (hphase : call.phase = .exchanging topology parts)
    (hpart : parts[index]? = some part) (hstage : stage ≠ .planned) :
    (part.unsent ++ (call.setStage index stage).phase.unsent).Perm call.phase.unsent := by
  have hnone : Part.unsent { part with stage } = [] := by
    unfold Part.unsent
    split
    · next hplanned => exact absurd hplanned hstage
    · rfl
  have hperm := perm_flatMap_set hpart Part.unsent { part with stage }
  rw [hnone, List.nil_append] at hperm
  rw [setStage_eq hphase hpart, hphase]
  exact hperm

/-- A limit is cut down to what is left before the deadline. -/
theorem within_bounded (call : Call σ) (now limitMs : Nat) :
    (Timer.mk now (call.bounded now limitMs)).Within call.deadline := by
  intro due hdue
  simp only [bounded, hdue]
  omega

/-- Another stage of a part leaves the deadline alone. -/
theorem deadline_setStage (call : Call σ) (index : Nat) (stage : PartStage) :
    (call.setStage index stage).deadline = call.deadline := by
  unfold setStage
  split <;> rfl

/-! ## The pace of a call -/

/-- One more remap is one more for the counter, unless it wraps around. -/
theorem toNat_attempt_succ (call : Call σ) (h : call.attempt.toNat + 1 < UInt32.size) :
    (call.attempt + 1).toNat = call.attempt.toNat + 1 := by
  rw [UInt32.toNat_add]
  exact Nat.mod_eq_of_lt h

/-- If one more remap exceeds the limit then the counter has not wrapped around. -/
theorem attempt_lt_of_exceeded {limit : UInt32} (h : limit < call.attempt + 1) :
    call.attempt.toNat + 1 < UInt32.size ∧ limit.toNat ≤ call.attempt.toNat := by
  have hover : limit.toNat < (call.attempt + 1).toNat := UInt32.lt_iff_toNat_lt.mp h
  have hlt : call.attempt.toNat < UInt32.size := call.attempt.toNat_lt
  rw [UInt32.toNat_add] at hover
  by_cases hwrap : call.attempt.toNat + 1 = UInt32.size
  · have hzero : (call.attempt.toNat + (1 : UInt32).toNat) % 2 ^ 32 = 0 := by
      show (call.attempt.toNat + 1) % 2 ^ 32 = 0
      rw [hwrap]
      rfl
    omega
  · have hsucc : (call.attempt.toNat + (1 : UInt32).toNat) % 2 ^ 32 = call.attempt.toNat + 1 :=
      Nat.mod_eq_of_lt (Nat.lt_of_le_of_ne hlt hwrap)
    omega

/-- How many rounds a call has started and closed, phase by phase. -/
def Pace (limit : UInt32) (call : Call σ) (c : Chronicle) : Prop :=
  match call.phase with
  | .mapping =>
    c.rounds.length ≤ limit.toNat + 1 ∧
      (call.outstanding = [] ∨ c.rounds.length = call.attempt.toNat ∧ c.Counts limit call.attempt)
  | .exchanging _ _ => c.rounds.length = call.attempt.toNat + 1 ∧ c.Counts limit call.attempt
  | .remapping _ _ _ _ => c.rounds.length = call.attempt.toNat ∧ c.Counts limit call.attempt
  | .ended _ => c.rounds.length ≤ limit.toNat + 1

/-- A call whose remaps and whose time are limited, beside the chronicle of what it has done so far.
-/
structure Paced (limit : UInt32) (deadline : Option Nat) (call : Call σ) (c : Chronicle) :
    Prop where
  due : call.deadline = deadline
  pace : c.HasRoom limit → call.Pace limit c
  /-- The call works on different rows. -/
  distinct : (call.held.map Prod.fst).Nodup
  /-- A row is sent once in each round at most. -/
  sent : ∀ index, (c.sentRows ++ call.phase.unsent).countP (·.1 == index) ≤ c.rounds.length
  bounded : ∀ timer ∈ c.timers, timer.Within deadline
  limited : call.phase.Limited limit c

namespace Paced

variable {limit : UInt32} {deadline : Option Nat} {c c' : Chronicle} {call' : Call σ}

/-- A call has started no more rounds than the limit admits. -/
theorem rounds_le (h : call.Paced limit deadline c) (hroom : c.HasRoom limit) :
    c.rounds.length ≤ limit.toNat + 1 := by
  have hpace := h.pace hroom
  unfold Pace at hpace
  split at hpace
  · exact hpace.1
  · exact Nat.le_trans (Nat.le_of_eq hpace.1) (Nat.succ_le_succ hpace.2.le)
  · exact Nat.le_succ_of_le (Nat.le_trans (Nat.le_of_eq hpace.1) hpace.2.le)
  · exact hpace

/-- A call that has not ended has not come to the last remap. -/
theorem not_exhausted (h : call.Paced limit deadline c) (hroom : c.HasRoom limit)
    (hphase : ∀ outcome, call.phase ≠ .ended outcome) :
    ¬ ∃ closing, c.closings[limit.toNat]? = some closing ∧ closing.remapped = true := fun hlast =>
  hphase _ ((h.limited.exact hroom limit).mpr ⟨rfl, hlast⟩)

/-- A call goes on without closing a round. -/
theorem limited_within (h : call.Paced limit deadline c)
    (hphase : ∀ outcome, call.phase ≠ .ended outcome) {rounds : List (List IndexedRow)}
    {requests : List (List IndexedRow × Timer)} {phase : Phase}
    (hphase' : ∀ n, phase ≠ .ended (.error (.remapLimit n))) :
    phase.Limited limit { c with rounds, requests } :=
  ⟨fun n hn => absurd hn (hphase' n), fun hroom n =>
    iff_of_false (hphase' n) fun hlast => h.not_exhausted hroom hphase hlast.2⟩

/-- Among different rows each index is there once at most. -/
theorem countP_le_one {rows : List IndexedRow} (h : (rows.map Prod.fst).Nodup) (index : Nat) :
    rows.countP (·.1 == index) ≤ 1 := by
  have hcount := List.nodup_iff_count_le_one.mp h index
  rwa [List.count, List.countP_map] at hcount

/-- A call goes on, or ends, with nothing more to be sent for now. -/
theorem halt (h : call.Paced limit deadline c) (hdistinct : (call'.held.map Prod.fst).Nodup)
    (hunsent : call'.phase.unsent = []) (hdeadline : call'.deadline = call.deadline)
    (hrounds : c.rounds.length ≤ c'.rounds.length) (hrequests : c'.requests = c.requests)
    (hwaits : ∀ timer ∈ c'.waits, timer ∈ c.waits ∨ timer.Within call.deadline)
    (hpace : c'.HasRoom limit → call'.Pace limit c') (hlimited : call'.phase.Limited limit c') :
    call'.Paced limit deadline c' := by
  refine ⟨hdeadline.trans h.due, hpace, hdistinct, fun index => ?_, fun timer htimer => ?_,
    hlimited⟩
  · have hold := h.sent index
    rw [List.countP_append] at hold
    rw [hunsent, List.append_nil, Chronicle.sentRows, hrequests, ← Chronicle.sentRows]
    omega
  · rw [Chronicle.timers, hrequests, List.mem_append] at htimer
    rcases htimer with hold | hwait
    · exact h.bounded timer (List.mem_append_left _ hold)
    · rcases hwaits timer hwait with hold | hbounded
      · exact h.bounded timer (List.mem_append_right _ hold)
      · exact h.due ▸ hbounded

/-! ### Mapping -/

/-- Mapping the rows of a round keeps a call within its limits. -/
theorem mapRound (h : call.Paced limit deadline c) (hphase : call.phase = .mapping) (e : Enlister σ)
    (seen : Readings) (now : Nat) :
    (call.mapRound e seen).1.Paced limit deadline
      (c.record call now none (call.mapRound e seen).1) := by
  have hlive : ∀ outcome, call.phase ≠ .ended outcome := by rw [hphase]; exact nofun
  have hpace := h.pace
  have hdistinct := h.distinct
  simp only [Pace, hphase] at hpace
  simp only [held, hphase] at hdistinct
  unfold Call.mapRound
  split
  · next hempty =>
    simp only [Chronicle.record, hphase, finish, if_pos hempty]
    exact h.halt hdistinct rfl rfl (Nat.le_refl _) rfl (fun _ => .inl) (fun hroom => (hpace hroom).1)
      (h.limited_within hlive nofun)
  · next hsome =>
    have hrows : call.outstanding ≠ [] := fun hnil => hsome (by rw [hnil]; rfl)
    have hcounted := fun hroom => (hpace hroom).2.resolve_left hrows
    have hlength : (c.rounds ++ [call.outstanding]).length = c.rounds.length + 1 :=
      List.length_append
    split
    · next err e' hmap =>
      have herr := Enlister.mapRows_ofRequest (congrArg Prod.fst hmap)
      simp only [Chronicle.record, hphase, finish, if_neg hsome]
      refine h.halt hdistinct rfl rfl ?_ rfl (fun _ => .inl) (fun hroom => ?_)
        (h.limited_within hlive fun n hn => ?_)
      · exact Nat.le_trans (Nat.le_add_right _ _) (Nat.le_of_eq hlength.symm)
      · obtain ⟨hrounds, hattempt⟩ := hcounted hroom
        show (c.rounds ++ [call.outstanding]).length ≤ limit.toNat + 1
        rw [hlength, hrounds]
        exact Nat.succ_le_succ hattempt.le
      · exact (Phase.ended_error_inj hn ▸ herr :)
    · next parts e' hmap =>
      obtain ⟨hperm, -, hplanned, -⟩ := Enlister.mapRows_ok hmap
      have hunsent : parts.flatMap Part.unsent = parts.flatMap Part.rows :=
        List.flatMap_congr fun part hpart => Part.unsent_of_planned (hplanned part hpart)
      simp only [Chronicle.record, hphase, if_neg hsome]
      refine ⟨h.due, fun hroom => ?_, ?_, fun index => ?_, h.bounded,
        h.limited_within hlive nofun⟩
      · obtain ⟨hrounds, hclosings, hwaits, hattempt⟩ := hcounted hroom
        exact ⟨hlength.trans (congrArg (· + 1) hrounds), hclosings, hwaits, hattempt⟩
      · exact (hperm.map Prod.fst).nodup_iff.mpr hdistinct
      · have hold := h.sent index
        have hone := countP_le_one hdistinct index
        show (c.sentRows ++ parts.flatMap Part.unsent).countP _ ≤ _
        rw [hunsent, List.countP_append, hperm.countP_eq, hlength]
        rw [List.countP_append] at hold
        omega

/-! ### Exchanging -/

/-- A part goes on to another stage, with or without a request that is sent. -/
theorem setStage (h : call.Paced limit deadline c)
    (hphase : call.phase = .exchanging topology parts)
    (hpart : parts[index]? = some part) (stage : PartStage) (hstage : stage ≠ .planned)
    (requests : List (List IndexedRow × Timer))
    (hrows : (requests.flatMap Prod.fst).Sublist part.unsent)
    (htimers : ∀ request ∈ requests, request.2.Within call.deadline) :
    (call.setStage index stage).Paced limit deadline
      { c with requests := c.requests ++ requests } := by
  have hlive : ∀ outcome, call.phase ≠ .ended outcome := by rw [hphase]; exact nofun
  have hpace := h.pace
  have hdistinct := h.distinct
  have hunsent := unsent_setStage hphase hpart hstage
  rw [← held_setStage hphase hpart stage] at hdistinct
  simp only [Pace, hphase] at hpace
  refine ⟨(deadline_setStage ..).trans h.due, ?_, hdistinct, fun index' => ?_,
    fun timer htimer => ?_, h.limited_within hlive ?_⟩
  · rw [setStage_eq hphase hpart]
    intro hroom
    obtain ⟨hrounds, hclosings, hwaits, hle⟩ := hpace hroom
    exact ⟨hrounds, hclosings, hwaits, hle⟩
  · have hold := h.sent index'
    rw [← (hunsent.append_left c.sentRows).countP_eq] at hold
    refine Nat.le_trans (List.Sublist.countP_le ?_) hold
    show ((c.requests ++ requests).flatMap Prod.fst ++ _).Sublist _
    rw [List.flatMap_append, List.append_assoc]
    exact (hrows.append_right _).append_left _
  · simp only [Chronicle.timers, List.map_append, List.append_assoc, List.mem_append] at htimer
    rcases htimer with hold | hnew | hold
    · exact h.bounded timer (List.mem_append_left _ hold)
    · obtain ⟨request, hrequest, rfl⟩ := List.mem_map.mp hnew
      exact h.due ▸ htimers request hrequest
    · exact h.bounded timer (List.mem_append_right _ hold)
  · rw [setStage_eq hphase hpart]
    exact nofun

/-- A part goes on to another stage without sending anything. -/
theorem setStage_silent (h : call.Paced limit deadline c)
    (hphase : call.phase = .exchanging topology parts)
    (hpart : parts[index]? = some part) (stage : PartStage) (hstage : stage ≠ .planned)
    (now : Nat) :
    (call.setStage index stage).Paced limit deadline
      (c.record call now none (call.setStage index stage)) := by
  have hnext := h.setStage hphase hpart stage hstage [] (List.nil_sublist _) nofun
  rw [List.append_nil] at hnext
  rw [Chronicle.record_silent hphase (congrArg Call.phase (setStage_eq hphase hpart stage))]
  exact hnext

/-- Sending a part keeps a call within its limits. -/
theorem sendPart (h : call.Paced limit deadline c)
    (hphase : call.phase = .exchanging topology parts)
    (hpart : parts[index]? = some part) (hplanned : part.stage = .planned) (e : Enlister σ)
    (now : Nat) :
    (call.sendPart e now topology index part).2.1.Paced limit deadline
      (c.record call now (call.sendPart e now topology index part).1
        (call.sendPart e now topology index part).2.1) := by
  have hlt : index < parts.length := (List.getElem?_eq_some_iff.mp hpart).1
  unfold Call.sendPart
  dsimp only
  generalize hlimit : call.bounded now (call.options.timeoutMs.getD e.config.requestTimeoutMs) =
    limitMs
  split
  · next err e' _ =>
    exact h.setStage_silent hphase hpart (.ended (.error err)) nofun now
  · next rx payload e' _ =>
    have hnext := h.setStage hphase hpart (.sent rx now limitMs) nofun
      [(part.rows, ⟨now, limitMs⟩)] (by simp [Part.unsent_of_planned hplanned])
      (List.forall_mem_singleton.mpr (hlimit ▸ within_bounded call now _))
    have hrecord : c.record call now (some { index, node := part.node, payload })
        (call.setStage index (.sent rx now limitMs)) =
          { c with requests := c.requests ++ [(part.rows, ⟨now, limitMs⟩)] } := by
      rw [setStage_eq hphase hpart]
      simp only [Chronicle.record, hphase, Option.bind_some, List.getElem?_set_self hlt]
    rw [hrecord]
    exact hnext

/-! ### Closing -/

/-- After one more round that the limit admits, the last one came to a remap if this is the last one
and came to one. -/
theorem exhausted_append (hcounted : c.Counts limit call.attempt) (closing : Closing) :
    (∃ last, (c.closings ++ [closing])[limit.toNat]? = some last ∧ last.remapped = true) ↔
      call.attempt.toNat = limit.toNat ∧ closing.remapped = true := by
  have hclosings := hcounted.closings
  have hle := hcounted.le
  rw [List.getElem?_append_right (by omega), hclosings]
  by_cases heq : call.attempt.toNat = limit.toNat
  · simp [heq]
  · rw [List.getElem?_eq_none (by simp only [List.length_singleton]; omega)]
    simp [heq]

/-- A round is closed, and the call ends, goes on to map what is outstanding, or waits. -/
theorem closeRound (h : call.Paced limit deadline c)
    (hphase : call.phase = .exchanging topology parts)
    {o : RoundOutcome} (ho : roundOutcome topology { result := call.result } parts = some o)
    (hfailed : ∀ err, o.failure = some err → err.OfRequest) {e : Enlister σ}
    (he : e.config.maxRemapAttempts = limit) (now : Nat) :
    (call.closeRound e now topology parts o).1.Paced limit deadline
      (c.record call now none (call.closeRound e now topology parts o).1) := by
  have hpace := h.pace
  simp only [Pace, hphase] at hpace
  have hrounds : c.HasRoom limit → c.rounds.length ≤ limit.toNat + 1 := h.rounds_le
  have hdistinct : (o.outstanding.map Prod.fst).Nodup := by
    have hall := h.distinct
    simp only [held, hphase] at hall
    exact hall.sublist ((RoundOutcome.outstanding_sublist ho rfl).map Prod.fst)
  have hlast := fun hroom => exhausted_append (hpace hroom).2 ⟨topology, parts⟩
  have hremapped := Closing.remapped_eq ho rfl rfl
  unfold Call.closeRound
  dsimp only
  cases hf : o.failure with
  | some err =>
    simp only [Chronicle.record, hphase, abort, finish]
    have hother : ∀ n, Phase.ended (.error err) ≠ .ended (.error (.remapLimit n)) := fun n hn =>
      (Phase.ended_error_inj hn ▸ hfailed err hf :)
    refine h.halt hdistinct rfl rfl (Nat.le_refl _) rfl (fun _ => .inl) hrounds
      ⟨fun n hn => absurd hn (hother n), fun hroom n => iff_of_false (hother n) fun hn => ?_⟩
    rw [hlast hroom, hremapped, hf] at hn
    simpa using hn.2.2
  | none =>
    cases hr : o.remap with
    | none =>
      have hnone := RoundOutcome.outstanding_eq_nil ho rfl hr
      simp only [Chronicle.record, hphase]
      refine h.halt hdistinct rfl rfl (Nat.le_refl _) rfl (fun _ => .inl)
        (fun hroom => ⟨hrounds hroom, .inl hnone⟩)
        ⟨nofun, fun hroom n => iff_of_false nofun fun hn => ?_⟩
      rw [hlast hroom, hremapped, hr] at hn
      simpa using hn.2.2
    | some asked =>
      have hagain : (Closing.mk topology parts).remapped = true := by
        rw [hremapped, hr, hf]
        rfl
      dsimp only
      rw [he]
      split
      · next hover =>
        obtain ⟨hlt, hle⟩ := attempt_lt_of_exceeded hover
        simp only [Chronicle.record, hphase, abort, finish]
        refine h.halt hdistinct rfl rfl (Nat.le_refl _) rfl (fun _ => .inl) hrounds
          ⟨fun _ _ => by omega, fun hroom n => ?_⟩
        rw [hlast hroom]
        refine ⟨fun hn => ?_, fun hn => by rw [hn.1]⟩
        obtain rfl := EnlistError.remapLimit.inj (Phase.ended_error_inj hn)
        exact ⟨rfl, Nat.le_antisymm (hpace hroom).2.le hle, hagain⟩
      · next hunder =>
        have hunder : (call.attempt + 1).toNat ≤ limit.toNat :=
          UInt32.le_iff_toNat_le.mp (UInt32.not_lt.mp hunder)
        simp only [Chronicle.record, hphase]
        -- with one more wait there is still room, so the counter has not wrapped around
        have hsucc : (Chronicle.mk c.rounds c.requests (c.closings ++ [⟨topology, parts⟩])
            (c.waits ++ [⟨now, now + call.bounded now e.config.requestTimeoutMs - now⟩])).HasRoom
              limit → c.HasRoom limit ∧ (call.attempt + 1).toNat = call.attempt.toNat + 1 := by
          intro hroom
          have hroom' : c.HasRoom limit := hroom.imp_right fun hlt => by
            rw [List.length_append] at hlt
            exact Nat.lt_of_le_of_lt (Nat.le_add_right _ _) hlt
          obtain ⟨-, -, hwaits, hle⟩ := hpace hroom'
          refine ⟨hroom', call.toNat_attempt_succ ?_⟩
          rcases hroom with hlt | hlt
          · omega
          · rwa [List.length_append, hwaits] at hlt
        refine h.halt hdistinct rfl rfl (Nat.le_refl _) rfl (fun timer htimer => ?_)
          (fun hroom => ?_) ⟨nofun, fun hroom n => iff_of_false nofun fun hn => ?_⟩
        · rcases List.mem_append.mp htimer with hold | hnew
          · exact .inl hold
          · obtain rfl := List.mem_singleton.mp hnew
            rw [Nat.add_sub_cancel_left]
            exact .inr (within_bounded call now _)
        · obtain ⟨hroom', hnext⟩ := hsucc hroom
          obtain ⟨hrounds, hclosings, hwaits, -⟩ := hpace hroom'
          refine ⟨hrounds.trans hnext.symm, ?_, ?_, hunder⟩
          · rw [List.length_append, hclosings]
            exact hnext.symm
          · rw [List.length_append, hwaits]
            exact hnext.symm
        · obtain ⟨hroom', hnext⟩ := hsucc hroom
          rw [hlast hroom'] at hn
          omega

/-! ### Remapping -/

/-- Going on to another round keeps a call within its limits. -/
theorem nextRound (h : call.Paced limit deadline c) {requested current : TopologyVersion}
    {mini : MiniId} {giveUpAt : Nat}
    (hphase : call.phase = .remapping requested current mini giveUpAt) (now : Nat) :
    call.nextRound.Paced limit deadline (c.record call now none call.nextRound) := by
  have hpace := h.pace
  have hdistinct := h.distinct
  simp only [Pace, hphase] at hpace
  simp only [held, hphase] at hdistinct
  simp only [Chronicle.record, hphase]
  refine h.halt ?_ rfl rfl (Nat.le_refl _) rfl (fun _ => .inl)
    (fun hroom => ⟨h.rounds_le hroom, .inr (hpace hroom)⟩)
    (h.limited_within (by rw [hphase]; exact nofun) nofun)
  exact ((List.mergeSort_perm _ _).map Prod.fst).nodup_iff.mpr hdistinct

/-- Giving up the wait for a topology keeps a call within its limits. -/
theorem abandon (h : call.Paced limit deadline c) {requested current : TopologyVersion}
    {mini : MiniId} {giveUpAt : Nat}
    (hphase : call.phase = .remapping requested current mini giveUpAt)
    (e : Enlister σ) (now : Nat) :
    (call.abandon e now requested current mini).1.Paced limit deadline
      (c.record call now none (call.abandon e now requested current mini).1) := by
  have hdistinct := h.distinct
  simp only [held, hphase] at hdistinct
  have hlive : ∀ outcome, call.phase ≠ .ended outcome := by rw [hphase]; exact nofun
  unfold Call.abandon
  split <;> simp only [Chronicle.record, hphase, abort, finish]
  · exact h.halt hdistinct rfl rfl (Nat.le_refl _) rfl (fun _ => .inl) h.rounds_le
      (h.limited_within hlive nofun)
  · exact h.halt hdistinct rfl rfl (Nat.le_refl _) rfl (fun _ => .inl) h.rounds_le
      (h.limited_within hlive nofun)

/-! ### Runs -/

/-- An event keeps the pace of a call, whatever it is. -/
theorem step (h : call.Paced limit deadline c) {e : Enlister σ}
    (hreports : ∀ part ∈ call.phase.parts, part.Reports e.registry call.future)
    (he : e.config.maxRemapAttempts = limit) (now : Nat) (event : Event) :
    (call.step e now event).2.1.Paced limit deadline
      (c.record call now (call.step e now event).1 (call.step e now event).2.1) := by
  have heffect := call.step_effect e now event
  generalize call.step e now event = r at heffect ⊢
  cases heffect with
  | idle =>
    rw [Chronicle.record_idle]
    exact h
  | map hphase => exact h.mapRound hphase e _ now
  | send hphase hpart hplanned => exact h.sendPart hphase hpart hplanned e now
  | @settle _ _ _ _ rx _ _ _ hphase hpart _ =>
    exact h.setStage_silent hphase hpart (.settled rx) nofun now
  | @collect _ _ _ _ _ outcome _ hphase hpart _ _ =>
    exact h.setStage_silent hphase hpart (.ended outcome) nofun now
  | close hphase ho =>
    refine h.closeRound hphase ho (fun err herr => ?_) he now
    rcases RoundOutcome.exists_failed ho herr with hnone | ⟨part, hpart, outcome, hended, hfailed⟩
    · cases hnone
    · rw [hphase] at hreports
      exact ((hreports part hpart).ended outcome hended).toResult hfailed
  | resume hphase _ => exact h.nextRound hphase now
  | giveUp hphase _ => exact h.abandon hphase e now

end Paced

end Call

namespace Session

/-- An event of a call leaves the configuration of its enlister as it is. -/
theorem config_move (s : Session σ) (m : Move) :
    (s.move m).enlister.config = s.enlister.config := by
  cases m with
  | beside action nextMini nextMessageId =>
    simp only [move]
    split <;> rfl
  | event now event =>
    have heffect := s.call.step_effect s.enlister now event
    simp only [move]
    generalize s.call.step s.enlister now event = r at heffect ⊢
    cases heffect with
    | idle | resume | settle => rfl
    | map =>
      unfold Call.mapRound
      split
      · rfl
      · split
        · next hmap => rw [Enlister.mapRows_error hmap]
        · next hmap =>
          obtain ⟨-, -, -, nextMini, rfl⟩ := Enlister.mapRows_ok hmap
          rfl
    | send =>
      unfold Call.sendPart
      dsimp only
      split <;> next hdispatch =>
        have hconfig := congrArg (fun r => r.2.config) hdispatch
        unfold Enlister.dispatch at hconfig
        dsimp only at hconfig ⊢
        rw [← hconfig]
        split <;> rfl
    | collect _ _ _ hcollect =>
      obtain ⟨rfl, -⟩ := Enlister.collect_some hcollect
      rfl
    | close =>
      unfold Call.closeRound
      dsimp only
      split
      · rfl
      · rfl
      · split <;> rfl
    | giveUp =>
      unfold Call.abandon
      split <;> rfl

variable {limit : UInt32} {deadline : Option Nat} {s : Session σ} {c : Chronicle}

/-- A run keeps the pace of a call. -/
theorem paced_run (h : s.call.Paced limit deadline c) (hreporting : s.Reporting)
    (hlimit : s.enlister.config.maxRemapAttempts = limit) (moves : List Move) :
    (s.run moves).call.Paced limit deadline (s.chronicle c moves) := by
  induction moves generalizing s c with
  | nil => exact h
  | cons m rest ih =>
    refine ih ?_ (hreporting.run [m]) (s.config_move m ▸ hlimit)
    cases m with
    | event now event => exact h.step hreporting.parts hlimit now event
    | beside action nextMini nextMessageId =>
      simp only [move, Chronicle.after]
      split <;> exact h

/-- A call that starts has done nothing so far. -/
theorem paced_start (limit : UInt32) (e : Enlister σ) (future : FutureId) (tx : Transaction)
    (op : Operation) (rows : List Row) (options : EnlistOptions σ) (now : Nat) :
    (start e future tx op rows options now).call.Paced limit
      (if 0 < tx.timeoutMs then some (now + tx.timeoutMs.toInt.toNat) else none) {} := by
  refine ⟨rfl, fun _ => ⟨Nat.zero_le _, .inr ⟨rfl, rfl, rfl, Nat.zero_le _⟩⟩, ?_,
    fun _ => Nat.le_refl _, nofun, ⟨nofun, fun _ n => iff_of_false nofun ?_⟩⟩
  · have horder : InOrder (rows.mapIdx fun index row => (index, row)) := inOrder_mapIdx rows
    show ((rows.mapIdx fun index row => (index, row)).map Prod.fst).Nodup
    rw [horder]
    exact List.nodup_range
  · rintro ⟨-, closing, hclosing, -⟩
    cases hclosing

/-- Remapping is bounded. An enlister has been used in any way, and a call starts with any
transaction, operation, rows and options. Whatever happens from then on, and whatever octets its
exchanges end with, the call goes by one round more than the remaps that are admitted, at most, and
sends no row more often than that. It fails with the limit of its remaps if the last of these rounds
comes to a remap and nothing in it fails, and only then. This is so as long as the counter of remaps
does not wrap around, which takes `2 ^ 32` waits and the greatest limit that there is; this limit is
never exceeded. If the transaction has a timeout, every exchange and every wait for another topology
is started with a limit that is not beyond the time left. -/
theorem remapping_bounded {e : Enlister σ} (hused : e.registry.Used) (future : FutureId)
    (tx : Transaction) (op : Operation) (rows : List Row) (options : EnlistOptions σ) (now : Nat)
    {moves : List Move} {s : Session σ} {c : Chronicle}
    (hs : (start e future tx op rows options now).run moves = s)
    (hc : (start e future tx op rows options now).chronicle {} moves = c) :
    let limit := e.config.maxRemapAttempts
    (limit.toNat + 1 < UInt32.size ∨ c.waits.length < UInt32.size →
      c.rounds.length ≤ limit.toNat + 1 ∧
        (∀ index, c.sentRows.countP (·.1 == index) ≤ limit.toNat + 1) ∧
        ∀ n, s.call.phase = .ended (.error (.remapLimit n)) ↔
          n = limit ∧ ∃ closing, c.closings[limit.toNat]? = some closing ∧
            closing.remapped = true) ∧
      (limit.toNat + 1 = UInt32.size →
        ∀ n, s.call.phase ≠ .ended (.error (.remapLimit n))) ∧
      (0 < tx.timeoutMs → ∀ timer ∈ c.timers,
        timer.limitMs ≤ now + tx.timeoutMs.toInt.toNat - timer.start) := by
  intro limit
  have hpaced := paced_run (paced_start limit e future tx op rows options now)
    ⟨hused, List.forall_mem_nil _⟩ rfl moves
  rw [hs, hc] at hpaced
  refine ⟨fun hroom => ⟨hpaced.rounds_le hroom, fun index => ?_, hpaced.limited.exact hroom⟩,
    fun hgreatest n hn => ?_, fun htimeout timer htimer => ?_⟩
  · have hsent := hpaced.sent index
    rw [List.countP_append] at hsent
    exact Nat.le_trans (by omega) (hpaced.rounds_le hroom)
  · exact Nat.ne_of_lt (hpaced.limited.exceeded n hn) hgreatest
  · exact hpaced.bounded timer htimer _ (if_pos htimeout)

/-- A call may map its rows again once. One node asks for that while another one accepts its rows,
and after the view has got to the version that was asked for, the first node asks again. So the row
is sent twice, no exchange has more time than is left, and the call fails for its remaps. -/
theorem remapping_bounded_twice :
    let view := fun major => { TopologyView.ofNodes [1, 2] 2 with version := ⟨major, 0⟩ }
    let loader : ClassLoader TopologyView := .ofRegistrations [] [] []
    let node : Node TopologyView := { id := 1, config := {}, loader, context := .ofCache 1 2 }
    let e : Enlister TopologyView :=
      { id := 3, config := { maxRemapAttempts := 1 }, loader, context := .ofCache 1 2 }
    let rows := [Row.entry (.int 2) (.int 10), Row.entry (.int 0) (.int 11)]
    let response : EnlistResponse := { base := { cacheId := 1 }, futureId := ⟨7⟩, mini := 1 }
    let reply := fun response => (node.encodeResponse response).toOption.getD []
    let moves : List Move := [.event 0 (.map (view 1).readings), .event 0 (.send 0), .event 0 (.send 1),
      .event 30 (.settle 0 (.replied (reply { response with remap := some ⟨2, 0⟩ }))),
      .event 40 (.settle 1 (.replied (reply { response with mini := 2 }))),
      .event 40 (.collect 0), .event 40 (.collect 1), .event 40 .close,
      .event 50 (.resume (view 2)), .event 50 (.map (view 2).readings), .event 50 (.send 0),
      .event 60 (.settle 0 (.replied (reply { response with mini := 3, remap := some ⟨3, 0⟩ }))),
      .event 60 (.collect 0), .event 60 .close]
    let tx : Transaction := { lock := ⟨1, 1, 1⟩, timeoutMs := 100 }
    let s := start e ⟨7⟩ tx .upsert rows {} 0
    (s.run moves).call.phase = .ended (.error (.remapLimit 1)) ∧
      (s.chronicle {} moves).rounds.length = 2 ∧
      (s.chronicle {} moves).timers = [⟨0, 100⟩, ⟨0, 100⟩, ⟨50, 50⟩, ⟨40, 60⟩] ∧
      ∀ index, (s.chronicle {} moves).sentRows.countP (·.1 == index) ≤ 2 := by
  intro view loader node e rows response reply moves tx s
  have hused : e.registry.Used := .refl _
  obtain ⟨hbounded, -, -⟩ := remapping_bounded hused ⟨7⟩ tx .upsert rows {} 0
    (rfl : s.run moves = s.run moves) (rfl : s.chronicle {} moves = s.chronicle {} moves)
  obtain ⟨-, hsent, hlimited⟩ := hbounded (.inl (by decide))
  have hlast : ((s.chronicle {} moves).closings[1]?.map Closing.remapped) = some true := by
    decide +kernel
  obtain ⟨closing, hclosing, hremapped⟩ := Option.map_eq_some_iff.mp hlast
  exact ⟨(hlimited 1).mpr ⟨rfl, closing, hclosing, hremapped⟩, by decide +kernel, by decide +kernel,
    hsent⟩

end Session

end Enlistment
