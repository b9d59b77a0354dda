import Enlistment.Proofs.Caller.Moves
import Enlistment.Proofs.Caller.SteadyRounds

/-!
# Calls on an unchanging topology

As long as the topology stays as it is and the nodes do nothing else, a call that succeeds takes one
round. Each node that owns rows of the call stages and commits them once, in the state in which the
call has found it, and the result is put together from what these nodes have staged.
-/

namespace Enlistment

open HasTopology (topology)

variable {σ : Type}

/-- A move under which the topology and the nodes stay as they are, but for the requests of the
call. -/
def Move.Steady (view : TopologyView) : Move σ → Prop
  | .event _ (.map seen) => seen = view.readings
  | .change _ => False
  | _ => True

variable [HasTopology σ]

namespace Network

variable {library : ClassLoader σ} {s₀ s : Network σ} {parts : List Part}

/-! ## Phases -/

/-- Where a call stands that takes one round. -/
inductive Course (library : ClassLoader σ) (s₀ s : Network σ) : Prop
  | waiting (hcall : s.call = s₀.call) (hnodes : s.nodes = s₀.nodes) (hstate : s.state = s₀.state)
      (hletters : s.letters = []) (hround : s.round = s₀.round)
  | exchanging {parts : List Part} (h : Exchanging s₀ s parts)
  | merged {shares : List (Share σ)} (hphase : s.call.phase = .mapping)
      (houtstanding : s.call.outstanding = []) (hresult : s.call.result = s₀.call.merged shares)
      (h : Shared library s₀ s shares)
  | finished {shares : List (Share σ)}
      (hphase : s.call.phase = .ended (.ok (s₀.call.merged shares).sortFailures))
      (h : Shared library s₀ s shares)
  | failed {err : EnlistError} (hphase : s.call.phase = .ended (.error err))

namespace Course

/-- The enlister makes no difference to where a call stands. -/
theorem with_enlister (h : Course library s₀ s) (enlister : Enlister σ) :
    Course library s₀ { s with enlister } := by
  cases h with
  | waiting hcall hnodes hstate hletters hround => exact .waiting hcall hnodes hstate hletters hround
  | exchanging h =>
    exact .exchanging ⟨h.call, h.state, h.round, h.groups, h.sent, h.arrived, h.nodes⟩
  | merged hphase houtstanding hresult h =>
    exact .merged hphase houtstanding hresult ⟨h.groups, h.staged, h.nodes, h.state⟩
  | finished hphase h => exact .finished hphase ⟨h.groups, h.staged, h.nodes, h.state⟩
  | failed hphase => exact .failed hphase

/-- A call that exchanges is in its first round, under the topology of the start. -/
theorem of_exchanging (h : Course library s₀ s) (hs₀ : s₀.Initial library)
    {version : TopologyVersion} (hexchanging : s.call.phase = .exchanging version parts) :
    version = (topology s₀.state).version ∧ Exchanging s₀ s parts := by
  cases h with
  | exchanging h =>
    have hphase := congrArg Call.phase h.call
    cases hexchanging.symm.trans hphase
    exact ⟨rfl, h⟩
  | waiting hcall _ _ _ _ =>
    rw [hcall, hs₀.phase] at hexchanging
    cases hexchanging
  | _ hphase => cases hphase.symm.trans hexchanging

/-- A call that takes one round never waits for a topology. -/
theorem not_remapping (h : Course library s₀ s) (hs₀ : s₀.Initial library)
    {requested current : TopologyVersion} {mini : MiniId} {giveUpAt : Nat} :
    s.call.phase ≠ .remapping requested current mini giveUpAt := by
  intro hremapping
  cases h with
  | waiting hcall _ _ _ _ =>
    rw [hcall, hs₀.phase] at hremapping
    cases hremapping
  | exchanging h =>
    rw [h.call] at hremapping
    cases hremapping
  | _ hphase => cases hphase.symm.trans hremapping

/-- Mapping starts the round of a call. If no rows are outstanding then the call is finished. -/
theorem mapRound (h : Course library s₀ s)
    (haccount : Accounted s₀.enlister s₀.call s₀.call.outstanding s)
    (hphase : s.call.phase = .mapping) :
    Course library s₀ (s.take (none, s.call.mapRound s.enlister (topology s₀.state).readings)) := by
  rw [s.take_mapRound]
  unfold Call.mapRound
  cases h with
  | waiting hcall hnodes hstate hletters hround =>
    have hcommits : List.Forall₂ (Node.Commits ([] : List (Share σ))) s₀.nodes s.nodes := by
      rw [hnodes]
      exact List.forall₂_same.mpr fun n _ => .inr ⟨List.forall_mem_nil _, rfl⟩
    split
    · next hempty =>
      have hnone : s₀.call.outstanding = [] := by rw [← hcall, List.isEmpty_iff.mp hempty]
      rw [hcall]
      refine .finished rfl ⟨?_, List.forall_mem_nil _, hcommits, hstate⟩
      rw [hnone]
      rfl
    · split
      · exact .failed rfl
      · next parts enlister hmap =>
        obtain ⟨registry, nextMini, nextMessageId, henlister⟩ := haccount.enlister
        have hgroups := Enlister.mapRows_groups hmap
        rw [henlister, hcall] at hgroups
        refine .exchanging ⟨by rw [hcall]; rfl, hstate, hround, hgroups, ?_, ?_, ?_⟩
        · show ∀ l ∈ s.letters, _
          rw [hletters]
          exact List.forall_mem_nil _
        · show ∀ l ∈ s.letters, _
          rw [hletters]
          exact List.forall_mem_nil _
        · show List.Forall₂ (Node.Handles s.letters s₀.state) s₀.nodes s.nodes
          rw [hletters, hnodes]
          exact List.forall₂_same.mpr fun n _ => .inr ⟨List.forall_mem_nil _, rfl⟩
  | merged _ houtstanding hresult h =>
    rw [houtstanding, List.isEmpty_nil, if_pos rfl]
    refine .finished ?_ ⟨h.groups, h.staged, h.nodes, h.state⟩
    rw [← hresult]
    rfl
  | exchanging h =>
    rw [h.call] at hphase
    cases hphase
  | _ hended => cases hended.symm.trans hphase

/-- A part of the round at another stage. -/
theorem setStage (h : Exchanging s₀ s parts) {index : Nat} {part : Part}
    (hpart : parts[index]? = some part) (stage : PartStage) (enlister : Enlister σ) :
    Course library s₀ (s.take (none, s.call.setStage index stage, enlister)) :=
  .exchanging (h.setStage hpart stage enlister)

/-- Sending the request of a part puts it on its way. -/
theorem sendPart (h : Exchanging s₀ s parts)
    (haccount : Accounted s₀.enlister s₀.call s₀.call.outstanding s) {index : Nat} {part : Part}
    (hpart : parts[index]? = some part) (now : Nat) :
    Course library s₀
      (s.take (s.call.sendPart s.enlister now (topology s₀.state).version index part)) := by
  have hphase : s.call.phase = .exchanging (topology s₀.state).version parts := by rw [h.call]
  obtain ⟨registry, nextMessageId, -, hresult⟩ := s.take_sendPart hphase hpart haccount.sound now
  rcases hresult with ⟨err, -, -, -, htake⟩ | ⟨rx, limitMs, payload, hencoded, -, htake⟩ <;>
    rw [htake]
  · exact setStage h hpart _ _
  · let l : Letter σ := {
      round := s.round, mini := part.mini, rows := part.rows
      dispatch := { index, node := part.node, payload } }
    have hsent : l.SentOn s₀.enlister s₀.call (topology s₀.state) := by
      obtain ⟨registry₀, nextMini₀, nextMessageId₀, henlister⟩ := haccount.enlister
      refine ⟨part, limitMs, nextMessageId₀, rfl, ?_⟩
      rw [henlister, h.call] at hencoded
      exact hencoded
    have hnext := h.setStage hpart (.sent rx now limitMs)
      { s.enlister with registry, nextMessageId }
    have hnode : ((parts.set index { part with stage := .sent rx now limitMs }).map Part.node)[
        l.dispatch.index]? = some l.dispatch.node := by
      rw [map_set_of_getElem? hpart (y := { part with stage := .sent rx now limitMs }) rfl,
        List.getElem?_map, hpart]
      rfl
    rw [s.take_setStage] at hnext ⊢
    exact .exchanging (hnext.send hsent hnode rfl)

/-- The end of the round ends the call with a failure, or leaves no rows outstanding. -/
theorem closeRound (h : Exchanging s₀ s parts) (hs₀ : s₀.Initial library)
    (haccount : Accounted s₀.enlister s₀.call s₀.call.outstanding s)
    (horder : InOrder s₀.call.outstanding) {o : RoundOutcome}
    (ho : Call.roundOutcome (topology s₀.state).version { result := s.call.result } parts = some o)
    (now : Nat) :
    Course library s₀
      (s.take (none, s.call.closeRound s.enlister now (topology s₀.state).version parts o)) := by
  rw [Network.take_none]
  unfold Call.closeRound
  dsimp only
  split
  · exact .failed rfl
  · next hfailure hremap =>
    obtain ⟨-, shares, hshared, hresult⟩ := h.close hs₀ haccount ho hfailure
    have hphase : s.call.phase = .exchanging (topology s₀.state).version parts := by rw [h.call]
    obtain ⟨past, slots, hround⟩ := haccount.phased.of_exchanging hphase
    have hnone := (hround.close horder haccount.posted ho hfailure).2 hremap
    exact .merged rfl hnone hresult ⟨hshared.groups, hshared.staged, hshared.nodes, hshared.state⟩
  · next current mini hfailure hremap =>
    obtain ⟨hnone, -⟩ := h.close hs₀ haccount ho hfailure
    cases hnone.symm.trans hremap

/-- Every event keeps a call on its course, as long as it is mapped on the same topology. -/
theorem advance (h : Course library s₀ s) (hs₀ : s₀.Initial library)
    (haccount : Accounted s₀.enlister s₀.call s₀.call.outstanding s)
    (horder : InOrder s₀.call.outstanding) (now : Nat) {event : Event}
    (hsteady : (Move.event (σ := σ) now event).Steady (topology s₀.state)) :
    Course library s₀ (s.advance now event) := by
  have heffect := s.call.step_effect s.enlister now event
  unfold Network.advance
  generalize s.call.step s.enlister now event = r at heffect ⊢
  cases heffect with
  | idle =>
    rw [s.take_idle]
    exact h
  | map hphase =>
    obtain rfl := hsteady
    exact h.mapRound haccount hphase
  | send hphase hpart _ =>
    obtain ⟨rfl, hexchanging⟩ := h.of_exchanging hs₀ hphase
    exact sendPart hexchanging haccount hpart now
  | settle hphase hpart _ =>
    obtain ⟨-, hexchanging⟩ := h.of_exchanging hs₀ hphase
    exact setStage hexchanging hpart _ _
  | collect hphase hpart _ _ =>
    obtain ⟨-, hexchanging⟩ := h.of_exchanging hs₀ hphase
    exact setStage hexchanging hpart _ _
  | close hphase ho =>
    obtain ⟨rfl, hexchanging⟩ := h.of_exchanging hs₀ hphase
    exact closeRound hexchanging hs₀ haccount horder ho now
  | resume hphase _ => exact absurd hphase (h.not_remapping hs₀)
  | giveUp hphase _ => exact absurd hphase (h.not_remapping hs₀)

/-- A request that reaches its node keeps the call on its course. It belongs to the round, or the
call has failed. -/
theorem arrive (h : Course library s₀ s) (hs₀ : s₀.Initial library)
    (haccount : Accounted s₀.enlister s₀.call s₀.call.outstanding s) {i j : Nat} {l : Letter σ}
    {n : Node σ} (hl : s.letters[i]? = some l) (hn : s.nodes[j]? = some n)
    (hnew : l.arrival = none) (hnode : n.id = l.dispatch.node) :
    Course library s₀ { s with
      nodes := s.nodes.set j (n.handleBytes l.dispatch.payload s.state).2.1
      state := (n.handleBytes l.dispatch.payload s.state).2.2
      letters := s.letters.set i { l with arrival := some (n, s.state) } } := by
  have hmem := List.mem_of_getElem? hl
  have hpending : ∀ {outstanding previous},
      ¬ Tallied s₀.enlister s₀.call s₀.call.outstanding s.letters outstanding previous := by
    intro outstanding previous htallied
    have harrived := htallied.arrived l hmem
    rw [hnew] at harrived
    cases harrived
  cases h with
  | waiting _ _ _ hletters _ =>
    rw [hletters] at hmem
    cases hmem
  | exchanging h =>
    have hphase := congrArg Call.phase h.call
    obtain ⟨past, slots, hround⟩ := haccount.phased.of_exchanging hphase
    exact .exchanging (h.arrive hs₀ hround hl hn hnew hnode)
  | merged hphase _ _ _ => exact absurd (haccount.phased.of_mapping hphase).1 hpending
  | finished hphase _ => exact absurd (haccount.phased.of_finished hphase) hpending
  | failed hphase => exact .failed hphase

/-- Every move under which the topology and the nodes stay as they are keeps a call on its
course. -/
theorem move (h : Course library s₀ s) (hs₀ : s₀.Initial library)
    (haccount : Accounted s₀.enlister s₀.call s₀.call.outstanding s)
    (horder : InOrder s₀.call.outstanding) {m : Move σ} (hsteady : m.Steady (topology s₀.state)) :
    Course library s₀ (s.move m) := by
  cases m with
  | event now event =>
    simp only [Network.move]
    split
    · exact h
    · exact h.advance hs₀ haccount horder now hsteady
  | arrive letter node =>
    simp only [Network.move, Network.arrive]
    split
    · next l n hl hn =>
      split
      · next hnew =>
        obtain ⟨hnone, hnode⟩ := Bool.and_eq_true_iff.mp hnew
        exact h.arrive hs₀ haccount hl hn (Option.isNone_iff_eq_none.mp hnone) (eq_of_beq hnode)
      · exact h
    · exact h
  | answer now letter =>
    simp only [Network.move, Network.answer]
    split
    · split
      · split
        · exact h.advance hs₀ haccount horder now trivial
        · exact h
      · exact h
    · exact h
  | change f => exact hsteady.elim
  | registry action nextMini nextMessageId =>
    simp only [Network.move]
    split
    · exact h.with_enlister _
    · exact h

end Course

/-- A call that succeeds while the topology and the nodes stay as they are is carried out in shares.
Each node that owns rows of the call stages and commits them in the state in which the call has
found it, the other nodes stay as they are, and the result is put together from the shares. -/
theorem run_shared (hs₀ : s₀.Initial library)
    (haccount : Accounted s₀.enlister s₀.call s₀.call.outstanding s₀)
    (horder : InOrder s₀.call.outstanding) {moves : List (Move σ)}
    (hsteady : ∀ m ∈ moves, m.Steady (topology s₀.state)) {result : EnlistResult}
    (hended : (s₀.run moves).call.phase = .ended (.ok result)) :
    ∃ shares, Shared library s₀ (s₀.run moves) shares ∧
      result = (s₀.call.merged shares).sortFailures := by
  obtain ⟨-, hcourse⟩ := run_invariant_of_mem
    (P := fun s => Accounted s₀.enlister s₀.call s₀.call.outstanding s ∧ Course library s₀ s)
    (fun s m hm h => ⟨h.1.move horder hs₀.filter m, h.2.move hs₀ h.1 horder (hsteady m hm)⟩)
    ⟨haccount, .waiting rfl rfl rfl hs₀.letters rfl⟩
  generalize s₀.run moves = s at hcourse hended
  cases hcourse with
  | waiting hcall _ _ _ _ =>
    rw [hcall, hs₀.phase] at hended
    cases hended
  | exchanging h =>
    rw [h.call] at hended
    cases hended
  | merged hphase _ _ _ => cases hphase.symm.trans hended
  | finished hphase h =>
    cases hphase.symm.trans hended
    exact ⟨_, h, rfl⟩
  | failed hphase => cases hphase.symm.trans hended

end Network

end Enlistment
