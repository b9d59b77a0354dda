import Enlistment.Proofs.Caller.ExactlyOnce
import Enlistment.Proofs.Caller.Screening

/-!
# Malformed batches

A batch with a row that cannot be brought into wire form is refused for this row. If a key is null,
or one node owns all rows, then nothing of the batch is sent. Else the rows of other nodes may have
been sent, and they stay committed.
-/

namespace Enlistment

variable {σ : Type}

/-! ## Calls that send nothing -/

/-- What a move does to the nodes and their state without the call. -/
def Move.beside : Move σ → List (Node σ) × σ → List (Node σ) × σ
  | .change f, p => f p.1 p.2
  | _, p => p

namespace Network

variable [HasTopology σ]

/-- No request is taken back. -/
theorem length_letters_le (s : Network σ) (m : Move σ) :
    s.letters.length ≤ (s.move m).letters.length := by
  have hadvance : ∀ now event, s.letters.length ≤ (s.advance now event).letters.length := by
    intro now event
    simp only [advance, take, List.length_append]
    omega
  cases m with
  | event now event =>
    simp only [move]
    split
    · exact Nat.le_refl _
    · exact hadvance now event
  | arrive letter node =>
    simp only [move, arrive]
    split
    · split
      · exact Nat.le_of_eq List.length_set.symm
      · exact Nat.le_refl _
    · exact Nat.le_refl _
  | answer now letter =>
    simp only [move, answer]
    split
    · split
      · split
        · exact hadvance now _
        · exact Nat.le_refl _
      · exact Nat.le_refl _
    · exact Nat.le_refl _
  | change f => exact Nat.le_refl _
  | registry action nextMini nextMessageId =>
    simp only [move]
    split <;> exact Nat.le_refl _

/-- As long as nothing is sent, the nodes are left to others. -/
theorem nodes_move {s : Network σ} (h : s.letters = []) (m : Move σ) :
    ((s.move m).nodes, (s.move m).state) = m.beside (s.nodes, s.state) := by
  cases m with
  | event now event =>
    simp only [move]
    split <;> rfl
  | arrive letter node =>
    simp only [move, arrive, h, List.getElem?_nil]
    rfl
  | answer now letter =>
    simp only [move, answer, h, List.getElem?_nil]
    rfl
  | change f => rfl
  | registry action nextMini nextMessageId =>
    simp only [move]
    split <;> rfl

/-- A call that sends nothing leaves the nodes to others. -/
theorem nodes_run {s : Network σ} {moves : List (Move σ)} (h : (s.run moves).letters = []) :
    ((s.run moves).nodes, (s.run moves).state) =
      moves.foldl (fun p m => m.beside p) (s.nodes, s.state) := by
  unfold run at h ⊢
  induction moves generalizing s with
  | nil => rfl
  | cons m rest ih =>
    have hgrows : (s.move m).letters.length ≤ (rest.foldl move (s.move m)).letters.length :=
      run_invariant (P := fun s' => (s.move m).letters.length ≤ s'.letters.length)
        (fun s' m' hle => Nat.le_trans hle (s'.length_letters_le m')) (Nat.le_refl _) rest
    have hnone : s.letters = [] := by
      refine List.length_eq_zero_iff.mp (Nat.eq_zero_of_le_zero ?_)
      rw [List.foldl_cons] at h
      rw [h] at hgrows
      exact Nat.le_trans (s.length_letters_le m) hgrows
    rw [List.foldl_cons, List.foldl_cons, ih h, nodes_move hnone]

/-! ## Refused batches -/

/-- A call is where it may be, with its rows accounted for, after any moves. -/
theorem screened_run {e : Enlister σ} (he : e.registry.Sound) (nodes : List (Node σ)) (state : σ)
    (future : FutureId) (tx : Transaction) (op : Operation) (rows : List Row)
    {options : EnlistOptions σ}
    (hfilter : ∀ f, options.filter = some f → (Message.filter f).Built) (now : Nat)
    (moves : List (Move σ)) :
    let call := Call.start future tx op rows options now
    let s := (start e nodes state future tx op rows options now).run moves
    Accounted e call (rows.mapIdx fun i row => (i, row)) s ∧
      Screened e op (rows.mapIdx fun i row => (i, row))
        (fun seen => ∃ now, Move.event now (.map seen) ∈ moves) s := by
  refine run_invariant_of_mem (P := fun s =>
    Accounted e (.start future tx op rows options now) (rows.mapIdx fun i row => (i, row)) s ∧
      Screened e op (rows.mapIdx fun i row => (i, row))
        (fun seen => ∃ now, Move.event now (.map seen) ∈ moves) s)
    (fun s m hm h => ⟨h.1.move (inOrder_mapIdx rows) hfilter m, ?_⟩)
    ⟨accounted_start he nodes state future tx op rows options now, .fresh rfl rfl rfl rfl⟩
  exact h.2.move h.1 m fun now seen heq => ⟨now, heq ▸ hm⟩

/-- A malformed batch is refused for one of its rows. Let a call of an enlister that has been used
in any way before run in any network. No request of the call has a row that cannot be brought into
wire form. If the call fails since a row cannot be, then the batch has this row at the position that
the failure names, and no request has gone to the owner that this row had when the batch was mapped.
If a key of the batch is null, or if the call fails in this way and all rows had one owner each time
that the batch was mapped, then nothing is sent, and the nodes and their topology are what others
have made of them. -/
theorem refused_rows_not_sent {e : Enlister σ} (before : List RegistryAction)
    (he : e.registry = before.foldl Registry.perform {}) (nodes : List (Node σ)) (state : σ)
    (future : FutureId) (tx : Transaction) (op : Operation) (rows : List Row)
    {options : EnlistOptions σ}
    (hfilter : ∀ f, options.filter = some f → (Message.filter f).Built) (now : Nat)
    (moves : List (Move σ)) {s : Network σ}
    (hs : (start e nodes state future tx op rows options now).run moves = s) :
    (∀ l ∈ s.letters, ∀ row ∈ l.rows, ∀ err, ¬e.Refuses op row err) ∧
      (∀ err, s.call.phase = .ended (.error (.marshal err)) →
        ∃ index row now seen, rows[index]? = some row ∧ e.Refuses op (index, row) err ∧
          Move.event now (.map seen) ∈ moves ∧ ∀ l ∈ s.letters,
            (seen.views index).primary (e.context.partitionOfValue row.keyValue) ≠
              some l.dispatch.node) ∧
      ((∃ row ∈ rows, row.keyValue.isNull = true) ∨
          (∃ err, s.call.phase = .ended (.error (.marshal err))) ∧
            (∀ now seen, Move.event now (.map seen) ∈ moves → ∃ node,
              ∀ index row, rows[index]? = some row →
                (seen.views index).primary (e.context.partitionOfValue row.keyValue) =
                  some node) →
        s.letters = [] ∧
          (s.nodes, s.state) = moves.foldl (fun p m => m.beside p) (nodes, state)) := by
  subst hs
  obtain ⟨haccount, hscreened⟩ := screened_run (he ▸ Registry.sound_foldl_perform before) nodes
    state future tx op rows hfilter now moves
  have hrun : ((start e nodes state future tx op rows options now).run moves).letters = [] →
      _ = moves.foldl (fun p m => m.beside p) (nodes, state) := nodes_run
  generalize (start e nodes state future tx op rows options now).run moves = s
    at haccount hscreened hrun ⊢
  have hblames : ∀ err, s.call.phase = .ended (.error (.marshal err)) →
      ∃ seen, (∃ now, Move.event now (.map seen) ∈ moves) ∧
        Blames e op (rows.mapIdx fun i row => (i, row)) seen s.letters err := by
    intro err hphase
    cases hscreened with
    | ended hended _ h => exact h err (Phase.ended.inj (hended.symm.trans hphase))
    | between hbetween _ =>
      rcases hbetween with hbetween | ⟨_, _, _, _, hbetween⟩ <;> cases hbetween.symm.trans hphase
    | _ hother => cases hother.symm.trans hphase
  refine ⟨fun l hl => (haccount.posted l hl).flawless, fun err hphase => ?_, fun hnone => ?_⟩
  · obtain ⟨seen, ⟨now, hseen⟩, row, hrow, hrefused, hothers⟩ := hblames err hphase
    obtain ⟨index, hlt, rfl⟩ := List.mem_mapIdx.mp hrow
    exact ⟨index, rows[index], now, seen, List.getElem?_eq_getElem hlt, hrefused, hseen,
      fun l hl => (hothers l hl).1⟩
  · suffices hletters : s.letters = [] from ⟨hletters, hrun hletters⟩
    rcases hnone with ⟨row, hrow, hnull⟩ | ⟨⟨err, hphase⟩, howner⟩
    · obtain ⟨index, hlt, rfl⟩ := List.mem_iff_getElem.mp hrow
      have hkeys : ¬∀ row ∈ rows.mapIdx fun i row => (i, row),
          (row : IndexedRow).2.keyValue.isNull = false := by
        intro hall
        rw [hall (index, rows[index]) (List.mem_mapIdx.mpr ⟨index, hlt, rfl⟩)] at hnull
        cases hnull
      cases hscreened with
      | fresh _ _ _ hletters => exact hletters
      | exchanging hphase h hround =>
        have hscreened : Screened e op _ _ s := .exchanging hphase h hround
        exact absurd (hscreened.keyValue_of_exchanging hphase) hkeys
      | between _ h => exact absurd h.keyValue hkeys
      | ended _ hsent _ => exact hsent.resolve_right hkeys
    · obtain ⟨seen, ⟨now, hseen⟩, row, hrow, -, hothers⟩ := hblames err hphase
      obtain ⟨node, hnode⟩ := howner now seen hseen
      refine List.eq_nil_iff_forall_not_mem.mpr fun l hl => ?_
      obtain ⟨hother, hrows, howned⟩ := hothers l hl
      -- a row of the request and the refused row have the same owner
      obtain ⟨row', hrow'⟩ := List.exists_mem_of_ne_nil _ hrows
      obtain ⟨hmem, howner'⟩ := howned row' hrow'
      obtain ⟨index, hlt, rfl⟩ := List.mem_mapIdx.mp hrow
      obtain ⟨index', hlt', rfl⟩ := List.mem_mapIdx.mp hmem
      rw [MarshalContext.ownedBy, hnode _ _ (List.getElem?_eq_getElem hlt')] at howner'
      rw [hnode _ _ (List.getElem?_eq_getElem hlt)] at hother
      exact hother (eq_of_beq howner')

/-- A batch of two rows for one node, of which the second has no value, is refused for this row
before anything is sent. -/
theorem refused_rows_of_one_node :
    let view := TopologyView.ofNodes [1] 2
    let loader : ClassLoader TopologyView := .ofRegistrations [] [] []
    let node : Node TopologyView := { id := 1, config := {}, loader, context := .ofCache 1 2 }
    let e : Enlister TopologyView := { id := 3, config := {}, loader, context := .ofCache 1 2 }
    let rows := [Row.entry (.int 2) (.int 10), Row.entry (.int 0) .null]
    let moves : List (Move TopologyView) :=
      [.event 0 (.map view.readings), .event 0 (.send 0), .arrive 0 0, .event 1 .close]
    let s := (start e [node] view ⟨7⟩ { lock := ⟨1, 1, 1⟩ } .upsert rows {} 0).run moves
    s.call.phase = .ended (.error (.marshal (.missingValue 1))) ∧ s.letters = [] ∧
      (s.nodes, s.state) = ([node], view) := by
  intro view loader node e rows moves s
  have hfailure : s.call.phase.failure? = some (.marshal (.missingValue 1)) := by decide +kernel
  have howner : ∀ row ∈ rows,
      view.primary (e.context.partitionOfValue row.keyValue) = some 1 := by decide +kernel
  have hphase := Phase.failure?_eq_some_iff.mp hfailure
  have hfilter : ∀ f, ({} : EnlistOptions TopologyView).filter = some f →
      (Message.filter f).Built := fun f hf => by cases hf
  have hs : (start e [node] view ⟨7⟩ { lock := ⟨1, 1, 1⟩ } .upsert rows {} 0).run moves = s := rfl
  have hmapped : ∀ now seen, Move.event now (.map seen) ∈ moves → seen = view.readings := by
    intro now seen hmem
    simp only [moves, List.mem_cons, List.not_mem_nil, or_false] at hmem
    rcases hmem with hmem | hmem | hmem | hmem <;> cases hmem
    rfl
  obtain ⟨-, -, hnothing⟩ := refused_rows_not_sent [] rfl [node] view ⟨7⟩ { lock := ⟨1, 1, 1⟩ }
    .upsert rows hfilter 0 moves hs
  obtain ⟨hletters, hnodes⟩ := hnothing (.inr ⟨⟨_, hphase⟩, fun now seen hmem =>
    ⟨1, fun index row hrow =>
      hmapped now seen hmem ▸ howner row (List.mem_of_getElem? hrow)⟩⟩)
  exact ⟨hphase, hletters, hnodes⟩

/-- The second row of a batch for two nodes has no value. The call is refused for this row, but the
first row has been sent, and its node has committed it. -/
theorem refused_batch_leaves_commit :
    let view := TopologyView.ofNodes [1, 2] 2
    let loader : ClassLoader TopologyView := .ofRegistrations [] [] []
    let node : NodeId → Node TopologyView := fun id =>
      { id, config := {}, loader, context := .ofCache 1 2 }
    let e : Enlister TopologyView := { id := 3, config := {}, loader, context := .ofCache 1 2 }
    let rows := [Row.entry (.int 2) (.int 10), Row.entry (.int 0) .null]
    let moves : List (Move TopologyView) :=
      [.event 0 (.map view.readings), .event 0 (.send 0), .event 0 (.send 1), .arrive 0 0, .answer 1 0,
        .event 1 (.collect 0), .event 1 .close]
    let s := (start e [node 1, node 2] view ⟨7⟩ { lock := ⟨1, 1, 1⟩ } .upsert rows {} 0).run moves
    s.call.phase.failure? = some (.marshal (.missingValue 1)) ∧
      s.letters.map Letter.committed = [true] ∧
      s.nodes.map (fun n => n.state.store.length) = [1, 0] := by
  decide +kernel

end Network

end Enlistment
