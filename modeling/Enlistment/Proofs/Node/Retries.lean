import Enlistment.Proofs.Node.DecodedRows
import Enlistment.Proofs.Stream.Arriving

/-!
# Unmarshalling again

A request from a decoder can be unmarshalled again after a failure. Its rows are still there as
long as the filter or the operation was what failed. But a call that stops at a row uses up all
rows, and later calls succeed without any.
-/

namespace Enlistment

open Wire

variable {σ : Type}

namespace EnlistRequest

/-! ## Calls -/

/-- A request after it was unmarshalled with some loaders, one after the other. -/
def afterCalls (req : EnlistRequest σ) : List (ClassLoader σ) → EnlistRequest σ
  | [] => req
  | loader :: rest => (req.unmarshal loader).2.afterCalls rest

/-- Whether a call stops at a row: the filter can be rebuilt, the rows are there with their
operation, and one of them cannot be rebuilt. -/
structure StopsAtRow (loader : ClassLoader σ) (req : EnlistRequest σ) : Prop where
  filter : (req.unmarshalFilter loader).1 = .ok ()
  op : req.op.isSome = true
  row : ∃ wire, req.wire = some wire ∧
    ∃ row ∈ splitRows wire, ∃ e, unmarshalRow req.keepBinary loader row = .error e

/-- Whether one of some calls, one after the other, stops at a row. -/
inductive RowFailed : EnlistRequest σ → List (ClassLoader σ) → Prop
  | now {req : EnlistRequest σ} {loader : ClassLoader σ} {rest : List (ClassLoader σ)}
      (hstops : req.StopsAtRow loader) : RowFailed req (loader :: rest)
  | later {req : EnlistRequest σ} {loader : ClassLoader σ} {rest : List (ClassLoader σ)}
      (hrest : RowFailed (req.unmarshal loader).2 rest) : RowFailed req (loader :: rest)

/-- Whether a request has the rows of another one: they are still in wire form, or all of them have
been rebuilt. -/
inductive Intact (origin req : EnlistRequest σ) : Prop
  | sent (hwire : req.wire = origin.wire) (henlisted : req.enlisted = origin.enlisted)
  | rebuilt {rows : List (EnlistedRow σ)} (hwire : req.wire = none)
      (henlisted : req.enlisted = some rows) (hrows : CameThrough origin.wire rows)

/-- A request without rows, neither in wire form nor rebuilt. -/
structure Emptied (req : EnlistRequest σ) : Prop where
  wire : req.wire = none
  enlisted : req.enlisted.getD [] = []

variable {origin req req' : EnlistRequest σ} {loader : ClassLoader σ}
  {result : Except UnmarshalError Unit}

/-- Rows of which one cannot be rebuilt belong to an operation if they stop a call. -/
theorem stopsAtRow_of_mapM {filter : Option (Filter σ)} {wire : WireRows σ} {e : UnmarshalError}
    (hfilter : req.unmarshalFilter loader = (.ok (), { req with filter := filter }))
    (hwire : req.wire = some wire) (hop : req.op.isSome = true ∨ wire.length = 0)
    (hrows : (splitRows wire).mapM (unmarshalRow req.keepBinary loader) = .error e) :
    req.StopsAtRow loader := by
  obtain ⟨row, hrow, hfails⟩ := mapM_error_iff.mp ⟨e, hrows⟩
  refine ⟨by rw [hfilter], hop.resolve_right fun hlength => ?_, wire, hwire, row, hrow, hfails⟩
  have hle := length_splitRows_le wire
  rw [← WireRows.length, hlength, Nat.le_zero] at hle
  rw [List.length_eq_zero_iff.mp hle] at hrow
  cases hrow

/-- A call that does not stop at a row keeps the rows. -/
theorem Intact.unmarshal (hintact : Intact origin req) (h : origin.Decoded)
    (hstops : ¬ req.StopsAtRow loader) (hcall : req.unmarshal loader = (result, req')) :
    Intact origin req' := by
  cases unmarshals hcall with
  | filterFails | noOperation =>
    cases hintact with
    | sent hwire henlisted => exact .sent hwire henlisted
    | rebuilt hwire henlisted hrows => exact .rebuilt hwire henlisted hrows
  | noRows _ hnone =>
    cases hintact with
    | sent hwire henlisted =>
      have hbare : origin.enlisted = none := (congrArg EnlistRequest.enlisted h.onWire).symm
      have hnothing : origin.wire = none := hwire ▸ hnone
      refine .rebuilt hnone (by rw [henlisted, hbare, Option.getD_none]) ?_
      rw [hnothing]
      exact ⟨rfl, rfl, rfl⟩
    | rebuilt hwire henlisted hrows => exact .rebuilt hwire (by rw [henlisted]; rfl) hrows
  | rowFails hfilter hwire hop hrows =>
    exact absurd (stopsAtRow_of_mapM hfilter hwire hop hrows) hstops
  | rebuilt _ hwire _ hrows =>
    cases hintact with
    | sent hsame => exact .rebuilt rfl rfl (h.cameThrough_of_mapM (hsame ▸ hwire) hrows)
    | rebuilt hnone => cases hnone.symm.trans hwire

/-- A call that stops at a row fails, and leaves a request without rows though there were keys. -/
theorem Intact.stops (hintact : Intact origin req) (h : origin.Decoded)
    (hstops : req.StopsAtRow loader) (hcall : req.unmarshal loader = (result, req')) :
    (∃ e, result = .error e) ∧ req'.Emptied ∧ origin.declaredKeys ≠ [] := by
  obtain ⟨hdone, hop, wire, hwire, row, hrow, hfails⟩ := hstops
  obtain ⟨hsame, henlisted⟩ | ⟨hnone, -, -⟩ := hintact
  · have hkeys : origin.declaredKeys ≠ [] := by
      rw [declaredKeys, ← hsame, hwire]
      refine List.ne_nil_of_length_pos ?_
      exact Nat.lt_of_lt_of_le (List.length_pos_of_mem hrow) (length_splitRows_le wire)
    have hbare : origin.enlisted = none := (congrArg EnlistRequest.enlisted h.onWire).symm
    cases unmarshals hcall with
    | filterFails hfilter => rw [hfilter] at hdone; cases hdone
    | noRows _ hnone => cases hnone.symm.trans hwire
    | noOperation _ _ hnone => rw [hnone] at hop; cases hop
    | rowFails => exact ⟨⟨_, rfl⟩, ⟨rfl, by rw [henlisted, hbare, Option.getD_none]⟩, hkeys⟩
    | rebuilt _ hagain _ hrows =>
      obtain rfl := Option.some.inj (hagain.symm.trans hwire)
      obtain ⟨e, he⟩ := mapM_error_iff.mpr ⟨row, hrow, hfails⟩
      cases hrows.symm.trans he
  · cases hnone.symm.trans hwire

/-- A request without rows stays without rows. -/
theorem Emptied.unmarshal (h : req.Emptied) (hcall : req.unmarshal loader = (result, req')) :
    req'.Emptied := by
  obtain ⟨hnone, hbare⟩ := h
  cases unmarshals hcall with
  | filterFails | noRows | noOperation => exact ⟨hnone, hbare⟩
  | rowFails _ hwire | rebuilt _ hwire => cases hnone.symm.trans hwire

/-- A call that succeeds leaves rebuilt rows, if only an empty list of them. -/
theorem enlisted_of_unmarshal (hcall : req.unmarshal loader = (.ok (), req')) :
    ∃ rows, req'.enlisted = some rows := by
  cases unmarshals hcall with
  | noRows | rebuilt => exact ⟨_, rfl⟩

/-! ## Runs of calls -/

variable {loaders : List (ClassLoader σ)}

/-- Calls that do not stop at a row keep the rows. -/
theorem Intact.afterCalls (hintact : Intact origin req) (h : origin.Decoded)
    (hkept : ¬ req.RowFailed loaders) : Intact origin (req.afterCalls loaders) := by
  induction loaders generalizing req with
  | nil => exact hintact
  | cons loader rest ih =>
    have hnext : Intact origin (req.unmarshal loader).2 :=
      hintact.unmarshal h (fun hstops => hkept (.now hstops)) rfl
    exact ih hnext fun hrest => hkept (.later hrest)

/-- No calls bring rows back. -/
theorem Emptied.afterCalls (h : req.Emptied) (loaders : List (ClassLoader σ)) :
    (req.afterCalls loaders).Emptied := by
  induction loaders generalizing req with
  | nil => exact h
  | cons loader rest ih =>
    have hnext : (req.unmarshal loader).2.Emptied := h.unmarshal rfl
    exact ih hnext

/-- Calls of which one stops at a row leave a request without rows though there were keys. -/
theorem RowFailed.emptied (hfailed : req.RowFailed loaders) (hintact : Intact origin req)
    (h : origin.Decoded) : (req.afterCalls loaders).Emptied ∧ origin.declaredKeys ≠ [] := by
  induction hfailed with
  | now hstops =>
    obtain ⟨-, hemptied, hkeys⟩ := hintact.stops h hstops rfl
    exact ⟨hemptied.afterCalls _, hkeys⟩
  | @later req loader rest _ ih =>
    by_cases hstops : req.StopsAtRow loader
    · obtain ⟨-, hemptied, hkeys⟩ := hintact.stops h hstops rfl
      exact ⟨hemptied.afterCalls rest, hkeys⟩
    · exact ih (hintact.unmarshal h hstops rfl)

/-- A request from a decoder is unmarshalled with some loaders, one after the other, and then with
one more. A failure at anything but a row takes nothing away. If the last call succeeds then there
is exactly one row for each key that came on the wire, in order and with its value or invocation,
provided that none of the calls before has stopped at a row. If one has, then there is no row at
all, though there were keys. -/
theorem Decoded.rows_after_calls (h : req.Decoded) (loaders : List (ClassLoader σ))
    (loader : ClassLoader σ) :
    (∀ e req', (req.afterCalls loaders).unmarshal loader = (.error e, req') →
      ¬ (req.afterCalls loaders).StopsAtRow loader →
        req'.wire = (req.afterCalls loaders).wire ∧
        req'.enlisted = (req.afterCalls loaders).enlisted) ∧
    ∀ req', (req.afterCalls loaders).unmarshal loader = (.ok (), req') →
      (¬ req.RowFailed loaders → ∃ rows, req'.enlisted = some rows ∧ CameThrough req.wire rows ∧
        rows.length = req.declaredKeys.length) ∧
      (req.RowFailed loaders → req'.enlisted = some [] ∧ req.declaredKeys ≠ []) := by
  have hintact : Intact req req := .sent rfl rfl
  have hbare : req.enlisted = none := (congrArg EnlistRequest.enlisted h.onWire).symm
  refine ⟨fun e req' hcall hstops => ?_, fun req' hcall => ⟨fun hkept => ?_, fun hfailed => ?_⟩⟩
  · cases unmarshals hcall with
    | filterFails | noOperation => exact ⟨rfl, rfl⟩
    | rowFails hfilter hwire hop hrows =>
      exact absurd (stopsAtRow_of_mapM hfilter hwire hop hrows) hstops
  · have hbefore := hintact.afterCalls h hkept
    have hstops : ¬ (req.afterCalls loaders).StopsAtRow loader := fun hstops => by
      obtain ⟨⟨e, he⟩, -⟩ := hbefore.stops h hstops hcall
      cases he
    obtain ⟨rows, hrows⟩ := enlisted_of_unmarshal hcall
    obtain ⟨-, hsame⟩ | ⟨-, henlisted, hcame⟩ := hbefore.unmarshal h hstops hcall
    · cases hrows.symm.trans (hsame.trans hbare)
    · refine ⟨_, henlisted, hcame, ?_⟩
      have hlength := congrArg List.length hcame.keys
      rw [List.length_map, List.length_map] at hlength
      rw [hlength, declaredKeys, hbare]
      cases req.wire <;> rfl
  · obtain ⟨hemptied, hkeys⟩ := hfailed.emptied hintact h
    obtain ⟨rows, hrows⟩ := enlisted_of_unmarshal hcall
    have hnone := (hemptied.unmarshal hcall).enlisted
    rw [hrows, Option.getD_some] at hnone
    exact ⟨hnone ▸ hrows, hkeys⟩

/-- A request that arrives comes from a decoder. -/
theorem ArrivesAs.decoded {sent decoded : EnlistRequest σ} (h : sent.ArrivesAs decoded) :
    decoded.Decoded := by
  obtain @⟨_, _, _, _, _, ⟨type, record⟩, _, -, -, -, hfound, hdecoded⟩ := h
  cases type with
  | request =>
    obtain rfl := Message.request.inj hdecoded
    exact .next (.feed _ .fresh) (Prod.ext (Decoder.next_of_firstOf hfound) rfl)
  | _ => cases hdecoded

/-- The class of a filter is not known at first. The row is there when it is. -/
theorem rows_after_unknown_filter :
    let settings : MarshalContext := .ofCache 5 8
    let stranger : ClassLoader Unit := .ofRegistrations [] [] []
    let friend : ClassLoader Unit := .ofRegistrations [] [] [("Adults", ⟨fun _ _ _ => (true, ())⟩)]
    let sent : EnlistRequest Unit :=
      { op := some .upsert
        filter := some (.custom "Adults")
        wire := some (.entries [.ofKey settings (.int 1)] [.complete (.int 2)]) }
    ∃ decoded failed received : EnlistRequest Unit, sent.ArrivesAs decoded ∧ decoded.Decoded ∧
      decoded.unmarshal stranger = (.error (.classNotFound "Adults"), failed) ∧
      failed.unmarshal friend = (.ok (), received) ∧
      ∃ rows, received.enlisted = some rows ∧ CameThrough decoded.wire rows ∧ rows.length = 1 := by
  intro settings stranger friend sent
  let req : EnlistRequest Unit :=
    { op := some .upsert
      filter := some (.custom "Adults")
      pending := some [.entry (.int 1) (.int 2)] }
  have hfilter : ∀ f, req.filter = some f → f = .custom "Adults" := fun f hf =>
    (Option.some.inj hf).symm
  have hbuilt : (Message.request req).Built :=
    .request req rfl fun f hf => hfilter f hf ▸ .custom "Adults"
  have hwhole : ∀ f, req.filter = some f → f.Whole := fun f hf =>
    Filter.whole_of_made (.inr (.inr (.inr ⟨"Adults", hfilter f hf⟩)))
  have hmarshal : req.marshal settings = .ok sent := rfl
  have hwithin : requestLayout.Within maxWireLength (WireForm.toRecord sent) := by decide
  have harrives := arrives_of_marshal hbuilt rfl hwhole hmarshal hwithin
  have hcalls := harrives.decoded.rows_after_calls [stranger] friend
  refine ⟨_, _, _, harrives, harrives.decoded, rfl, rfl, ?_⟩
  refine (hcalls.2 _ rfl).1 fun hfailed => ?_
  cases hfailed with
  | now hstops => cases hstops.filter
  | later hrest => cases hrest

/-- The class of a value is not known at first. When it is, the call succeeds without the row. -/
theorem rows_lost_after_unknown_class :
    let settings : MarshalContext := .ofCache 5 8
    let stranger : ClassLoader Unit := .ofRegistrations [] [] []
    let friend : ClassLoader Unit := .ofRegistrations ["Person"] [] []
    let req : EnlistRequest Unit :=
      { op := some .upsert, pending := some [.entry (.int 1) (.object "Person" [])] }
    ∃ sent decoded failed received, req.marshal settings = .ok sent ∧ sent.ArrivesAs decoded ∧
      decoded.Decoded ∧ decoded.declaredKeys.length = 1 ∧
      decoded.unmarshal stranger = (.error (.classNotFound "Person"), failed) ∧
      failed.unmarshal friend = (.ok (), received) ∧ received.enlisted = some [] ∧
      ∃ kept rows, decoded.unmarshal friend = (.ok (), kept) ∧ kept.enlisted = some rows ∧
        rows.length = 1 := by
  intro settings stranger friend req
  let sent : EnlistRequest Unit :=
    { op := some .upsert
      wire := some (.entries [.ofKey settings (.int 1)] [.complete (.object "Person" [])]) }
  have hbuilt : (Message.request req).Built := .request req rfl fun f hf => (by cases hf)
  have hmarshal : req.marshal settings = .ok sent := rfl
  have harrives : sent.ArrivesAs sent.onWire :=
    arrives_of_marshal hbuilt rfl (fun f hf => (by cases hf)) hmarshal
      (within_upsert _ (by decide) (by decide))
  exact ⟨sent, _, _, _, hmarshal, harrives, harrives.decoded, rfl, rfl, rfl, rfl, _, _, rfl, rfl,
    rfl⟩

end EnlistRequest

end Enlistment
