import Enlistment.Proofs.Caller.ExactlyOnce

/-!
# What calls fail for

A call fails for a reason of its caller, since it gives up while it asks for a remap, or for a
reason that has come with the answer to one of its requests: the answer cannot be read, or it
reports an error of the node. No other call that uses the same enlister has a hand in it.
-/

namespace Enlistment

variable {σ : Type}

/-- Rows that cannot be mapped fail for a reason of the caller. -/
theorem Enlister.mapRows_own {e e' : Enlister σ} {views : Nat → TopologyView}
    {rows : List IndexedRow} {err : EnlistError} (h : e.mapRows views rows = (.error err, e')) :
    err.IsOwn := by
  obtain ⟨row, -, hlost⟩ := exists_of_mapRows_error (congrArg Prod.fst h)
  rcases ownerOf_error hlost with ⟨-, rfl⟩ | ⟨-, -, rfl⟩ <;> trivial

variable [HasTopology σ]

/-- An error has come with the answer to a request: the answer cannot be read for it, or reports
it. -/
def Letter.Brings (e : Enlister σ) (l : Letter σ) (err : EnlistError) : Prop :=
  ∃ bytes, l.reply = some (.ok bytes) ∧ (e.readReply bytes = .error err ∨
    ∃ response m, e.readReply bytes = .ok response ∧ response.error = some m ∧
      err = .remote m.render)

/-- An error of the caller, that a remap is needed, or an error that has come with the answer to one
of some requests. -/
def EnlistError.Explained (e : Enlister σ) (letters : List (Letter σ)) (err : EnlistError) :
    Prop :=
  err.IsOwn ∨ err.isRetriable = true ∨ ∃ l ∈ letters, l.Brings e err

/-- The error with which a call has ended is explained. -/
def Network.Explained (e : Enlister σ) (s : Network σ) : Prop :=
  ∀ err, s.call.phase = .ended (.error err) → err.Explained e s.letters

/-- Errors stay explained as requests reach their nodes. -/
theorem EnlistError.Explained.mono {e : Enlister σ} {letters letters' : List (Letter σ)}
    {err : EnlistError} (h : err.Explained e letters)
    (hletters : ∀ l ∈ letters, l ∈ letters' ∨ l.reply = none) : err.Explained e letters' := by
  refine h.imp_right (Or.imp_right ?_)
  rintro ⟨l, hl, bytes, hreply, hbrings⟩
  refine ⟨l, (hletters l hl).resolve_right fun hnone => ?_, bytes, hreply, hbrings⟩
  cases hnone.symm.trans hreply

namespace Network

section

variable {e : Enlister σ} {c : Call σ} {rows : List IndexedRow} {s : Network σ}

/-- A round fails for the reason for which one of its parts has, or since the answer to one of its
requests reports an error. -/
theorem explained_closeRound (haccount : Accounted e c rows s) {version : TopologyVersion}
    {parts : List Part} (hphase : s.call.phase = .exchanging version parts) {o : RoundOutcome}
    (ho : Call.roundOutcome version { result := s.call.result } parts = some o) (now : Nat) :
    (s.take (none, s.call.closeRound s.enlister now version parts o)).Explained e := by
  obtain ⟨past, slots, hround⟩ := haccount.phased.of_exchanging hphase
  rw [take_none]
  unfold Call.closeRound
  dsimp only
  split
  · next err hfailure =>
    intro cause hcause
    obtain rfl := Except.error.inj (Phase.ended.inj hcause)
    obtain ⟨part, hpart, outcome, hended, herror⟩ :=
      (RoundOutcome.exists_failed ho hfailure).resolve_left fun hnone => by cases hnone
    obtain ⟨index, hindex⟩ := List.getElem?_of_mem hpart
    obtain ⟨letter, hslot⟩ := hround.exists_slot hindex
    have hclosed := hround.closed haccount.posted _ (List.mem_of_getElem? hslot) outcome hended
    cases outcome with
    | error cause =>
      obtain rfl : cause = err := Except.error.inj herror
      rcases hclosed with ⟨cause', hcause', hown⟩ | ⟨l, bytes, rfl, -, -, hreply, hread⟩
      · obtain rfl := Except.error.inj hcause'
        exact .inl hown
      · exact .inr (.inr ⟨l, hround.mem_of_slot hslot, bytes, hreply, .inl hread⟩)
    | ok response =>
      rcases hclosed with ⟨cause, hcause, -⟩ | ⟨l, bytes, rfl, -, -, hreply, hread⟩
      · cases hcause
      · simp only [Except.bind, EnlistResponse.toResult] at herror
        split at herror
        · exact .inr (.inl (Except.error.inj herror ▸ rfl))
        · next m _ hm =>
          exact .inr (.inr ⟨l, hround.mem_of_slot hslot, bytes, hreply, .inr ⟨response, m, hread,
            hm, (Except.error.inj herror).symm⟩⟩)
        · cases herror
  · exact fun err herr => by cases herr
  · split
    · intro cause hcause
      obtain rfl := Except.error.inj (Phase.ended.inj hcause)
      exact .inl trivial
    · exact fun err herr => by cases herr

/-- Every event of the call leaves its error explained. -/
theorem explained_advance (h : s.Explained e) (haccount : Accounted e c rows s) (now : Nat)
    (event : Event) : (s.advance now event).Explained e := by
  have hstage : ∀ {version parts}, s.call.phase = .exchanging version parts →
      ∀ index stage err, (s.call.setStage index stage).phase ≠ .ended (.error err) := by
    intro version parts hphase index stage err
    simp [Call.setStage, hphase]
  have heffect := s.call.step_effect s.enlister now event
  unfold advance
  generalize s.call.step s.enlister now event = r at heffect ⊢
  cases heffect with
  | idle =>
    rw [take_none]
    exact h
  | map hphase =>
    rw [take_none]
    unfold Call.mapRound
    split
    · exact fun err herr => by cases herr
    · split
      · next err enlister hmap =>
        intro cause hcause
        obtain rfl := Except.error.inj (Phase.ended.inj hcause)
        exact .inl (Enlister.mapRows_own hmap)
      · exact fun err herr => by cases herr
  | send hphase hpart _ =>
    obtain ⟨registry, nextMessageId, -, hresult⟩ :=
      s.take_sendPart hphase hpart haccount.sound now
    rcases hresult with ⟨_, _, -, -, htake⟩ | ⟨_, _, _, -, -, htake⟩ <;>
      rw [htake, take_none] <;> exact fun err herr => absurd herr (hstage hphase _ _ err)
  | settle hphase _ _ =>
    rw [take_none]
    exact fun err herr => absurd herr (hstage hphase _ _ err)
  | collect hphase _ _ _ =>
    rw [take_none]
    exact fun err herr => absurd herr (hstage hphase _ _ err)
  | close hphase ho => exact explained_closeRound haccount hphase ho now
  | resume _ _ =>
    rw [take_none]
    exact fun err herr => by cases herr
  | giveUp _ _ =>
    rw [take_none]
    unfold Call.abandon
    split <;> intro cause hcause <;> obtain rfl := Except.error.inj (Phase.ended.inj hcause)
    · exact .inl trivial
    · exact .inr (.inl rfl)

/-- Every move leaves the error of the call explained. -/
theorem explained_move (h : s.Explained e) (haccount : Accounted e c rows s) (m : Move σ) :
    (s.move m).Explained e := by
  refine s.move_cases m h (fun now event _ _ => explained_advance h haccount now event)
    (fun i l arrival nodes state hl hnew => ?_) (fun _ _ => h) fun _ _ _ _ => h
  -- a request that reaches its node had no answer before
  refine fun err herr => (h err herr).mono fun l' hl' => ?_
  refine (mem_set_of_mem hl hl' _).imp_right ?_
  rintro rfl
  rw [Letter.reply, hnew]
  rfl

end

/-- The error of a call is explained after any moves. Let the enlister have been used in any way
before: if the call fails in any network, then for a reason of the caller, since a remap is needed,
or for one that has come with the answer of a node to a request of the call. -/
theorem explained_run {e : Enlister σ} (he : e.registry.Sound) (nodes : List (Node σ)) (state : σ)
    (future : FutureId) (tx : Transaction) (op : Operation) (rows : List Row)
    {options : EnlistOptions σ}
    (hfilter : ∀ f, options.filter = some f → (Message.filter f).Built) (now : Nat)
    (moves : List (Move σ)) :
    let call := Call.start future tx op rows options now
    let s := (start e nodes state future tx op rows options now).run moves
    Accounted e call (rows.mapIdx fun i row => (i, row)) s ∧ s.Explained e := by
  exact run_invariant (P := fun s => Accounted e (.start future tx op rows options now)
      (rows.mapIdx fun i row => (i, row)) s ∧ s.Explained e)
    (fun _ m h => ⟨h.1.move (inOrder_mapIdx rows) hfilter m, explained_move h.2 h.1 m⟩)
    ⟨accounted_start he nodes state future tx op rows options now, fun err herr => by cases herr⟩
    moves

end Network

end Enlistment
