import Enlistment.Proofs.Caller.Moves

/-!
# Exactly-once rows

Whatever happens in a network, no row of a call is committed by two of its requests. If the call
succeeds, then every row was committed by one request, and the slot of the row holds what this
request was answered.
-/

namespace Enlistment

variable {σ : Type} [HasTopology σ]

/-! ## Counting commits -/

omit [HasTopology σ] in
/-- The rows of a call are numbered in order. -/
theorem inOrder_mapIdx (rows : List Row) : InOrder (rows.mapIdx fun index row => (index, row)) := by
  refine List.ext_getElem? fun index => ?_
  by_cases hlt : index < rows.length <;> simp [hlt]

/-- A request that has committed a row is one of those that have it. -/
theorem commits_le_count (letters : List (Letter σ)) (index : Nat) :
    letters.countP (fun l => l.committed && (l.rows.map Prod.fst).contains index) ≤
      ((letters.flatMap Letter.liveRows).map Prod.fst).count index := by
  induction letters with
  | nil => exact Nat.le_refl 0
  | cons l rest ih =>
    rw [List.countP_cons, List.flatMap_cons, List.map_append, List.count_append]
    split
    · next hcommitted =>
      obtain ⟨hcommitted, hindex⟩ := Bool.and_eq_true_iff.mp hcommitted
      have hlive : l.liveRows = l.rows := by simp [Letter.liveRows, hcommitted]
      have hone : 0 < ((l.liveRows).map Prod.fst).count index := by
        rw [hlive]
        exact List.count_pos_iff.mpr (List.contains_iff_mem.mp hindex)
      omega
    · omega

namespace Network

/-- The account of a call at its start. -/
theorem accounted_start {e : Enlister σ} (he : e.registry.Sound) (nodes : List (Node σ)) (state : σ)
    (future : FutureId) (tx : Transaction) (op : Operation) (rows : List Row)
    (options : EnlistOptions σ) (now : Nat) :
    Accounted e (.start future tx op rows options now) (rows.mapIdx fun index row => (index, row))
      (start e nodes state future tx op rows options now) := by
  refine ⟨rfl, rfl, rfl, ⟨e.registry, e.nextMini, e.nextMessageId, rfl⟩, he, ?_, ?_⟩
  · intro l hl
    cases hl
  · refine .mapping rfl ⟨?_, .refl _, ?_, ?_⟩ (.inr ?_)
    · intro l hl
      cases hl
    · intro l hl
      cases hl
    · cases hneed : options.needResult <;> simp [start, Call.start, hneed]
    · intro l hl
      cases hl

/-- Rows are enlisted exactly once. Let a call of an enlister that has been used in any way before
run against any nodes, with any changes of topology on either side, with delays, timeouts and
failures of the network before or after a request has reached its node, and beside other calls. Then
no row of the call is committed by two of its requests, and a request that was committed is read by
its node with just the rows that the call has put into it. If the call succeeds, every row was
committed by one request, and the slot of the row holds the value at its position in the answer to
this request. -/
theorem rows_committed_once {e : Enlister σ} (before : List RegistryAction)
    (he : e.registry = before.foldl Registry.perform {}) (nodes : List (Node σ)) (state : σ)
    (future : FutureId) (tx : Transaction) (op : Operation) (rows : List Row)
    {options : EnlistOptions σ}
    (hfilter : ∀ f, options.filter = some f → (Message.filter f).Built) (now : Nat)
    (moves : List (Move σ)) {s : Network σ}
    (hs : (start e nodes state future tx op rows options now).run moves = s) :
    (∀ index, s.commits index ≤ 1) ∧
      (∀ l ∈ s.letters, l.committed = true → (∀ row ∈ l.rows, rows[row.1]? = some row.2) ∧
        ∃ (n : Node σ) (state : σ) (req : EnlistRequest σ) (wire : WireRows σ),
          l.arrival = some (n, state) ∧ n.decodeRequest l.dispatch.payload = .ok req ∧
          req.op = some op ∧ req.futureId = future ∧
          EnlistRequest.convertRows e.context (some op) (l.rows.map Prod.snd) = .ok wire ∧
          req.wire = some wire.onWire) ∧
      ∀ result, s.call.phase = .ended (.ok result) →
        (∀ index < rows.length, s.commits index = 1) ∧
        result.previous.length = (if options.needResult then rows.length else 0) ∧
        ∀ l ∈ s.letters, l.committed = true →
          l.Stands e options.needResult result.previous := by
  subst hs
  have horder := inOrder_mapIdx rows
  have hsound : e.registry.Sound := he ▸ Registry.sound_foldl_perform before
  have haccount := run_invariant
    (P := Accounted e (.start future tx op rows options now) (rows.mapIdx fun i row => (i, row)))
    (fun s m h => h.move horder hfilter m)
    (accounted_start hsound nodes state future tx op rows options now) moves
  generalize (start e nodes state future tx op rows options now).run moves = s at haccount ⊢
  obtain ⟨rest, hlive⟩ := haccount.phased.live
  have hmost : ∀ index, s.commits index ≤ 1 := by
    intro index
    refine Nat.le_trans (commits_le_count s.letters index) (List.nodup_iff_count.mp ?_ index)
    have hnodup := (hlive.map Prod.fst).nodup_iff.mpr (horder ▸ List.nodup_range)
    rw [List.map_append] at hnodup
    exact (List.nodup_append.mp hnodup).1
  refine ⟨hmost, fun l hl hcommitted => ⟨fun row hrow => ?_, ?_⟩, fun result hphase => ?_⟩
  · have hmem := hlive.mem_iff.mp (List.mem_append_left _ (List.mem_flatMap.mpr ⟨l, hl,
      show row ∈ l.liveRows by simpa [Letter.liveRows, hcommitted] using hrow⟩))
    obtain ⟨index, hlt, rfl⟩ := List.mem_mapIdx.mp hmem
    exact List.getElem?_eq_getElem hlt
  · exact (haccount.posted l hl).carries hcommitted
  · have htallied := haccount.phased.of_finished hphase
    refine ⟨fun index hindex => Nat.le_antisymm (hmost index) ?_, ?_, htallied.stands⟩
    · have hrow : ((index, rows[index]) : IndexedRow) ∈ s.letters.flatMap Letter.committedRows := by
        rw [← List.append_nil (s.letters.flatMap Letter.committedRows), htallied.shared.mem_iff]
        exact List.mem_mapIdx.mpr ⟨index, hindex, rfl⟩
      obtain ⟨l, hl, hmem⟩ := List.mem_flatMap.mp hrow
      unfold Letter.committedRows at hmem
      split at hmem
      · next hcommitted =>
        refine List.countP_pos_iff.mpr ⟨l, hl, ?_⟩
        rw [hcommitted, Bool.true_and, List.contains_iff_mem]
        exact List.mem_map_of_mem hmem
      · cases hmem
    · rw [htallied.length, List.length_mapIdx]
      rfl

/-- One of two rows is committed in the first round. The topology changes before the request with
the other one arrives, so its node asks for a remap, and the row is committed in the second
round. -/
theorem rows_committed_once_across_remap :
    let view := TopologyView.ofNodes [1, 2] 2
    let moved := view.reassign 1 1
    let loader : ClassLoader TopologyView := .ofRegistrations [] [] []
    let node : NodeId → Node TopologyView := fun id =>
      { id, config := {}, loader, context := .ofCache 1 2 }
    let e : Enlister TopologyView := { id := 3, config := {}, loader, context := .ofCache 1 2 }
    let rows := [Row.entry (.int 2) (.int 10), Row.entry (.int 0) (.int 11)]
    let first : List (Move TopologyView) :=
      [.event 0 (.map view.readings), .event 0 (.send 0), .event 0 (.send 1), .arrive 0 0,
        .change fun nodes view => (nodes, view.reassign 1 1), .arrive 1 1, .answer 5 0,
        .answer 5 1, .event 5 (.collect 0), .event 5 (.collect 1), .event 5 .close]
    let second : List (Move TopologyView) :=
      [.event 6 (.resume moved), .event 6 (.map moved.readings), .event 6 (.send 0), .arrive 2 0,
        .answer 7 2, .event 7 (.collect 0), .event 7 .close, .event 7 (.map moved.readings)]
    let s := (start e [node 1, node 2] view ⟨7⟩ { lock := ⟨1, 1, 1⟩ } .upsert rows
      { needResult := true } 0).run (first ++ second)
    s.letters.map Letter.committed = [true, false, true] ∧ s.commits 0 = 1 ∧ s.commits 1 = 1 ∧
      ∃ result, s.call.phase = .ended (.ok result) ∧ result.previous.length = 2 := by
  intro view moved loader node e rows first second s
  have heval : s.letters.map Letter.committed = [true, false, true] ∧
      s.call.phase.result?.isSome = true := by decide +kernel
  obtain ⟨hletters, hended⟩ := heval
  obtain ⟨result, hresult⟩ := Option.isSome_iff_exists.mp hended
  have hphase := Phase.result?_eq_some_iff.mp hresult
  have hfilter : ∀ f, ({ needResult := true } : EnlistOptions TopologyView).filter = some f →
      (Message.filter f).Built := fun f hf => by cases hf
  obtain ⟨hall, hlength, -⟩ := (rows_committed_once (e := e) [] rfl [node 1, node 2] view
    ⟨7⟩ { lock := ⟨1, 1, 1⟩ } .upsert rows hfilter 0 (first ++ second) (s := s) rfl).2.2 result
    hphase
  exact ⟨hletters, hall 0 (by decide), hall 1 (by decide), result, hphase, hlength⟩

end Network

end Enlistment
