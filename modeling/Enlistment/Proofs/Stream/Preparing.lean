import Enlistment.Proofs.Message.Faults
import Enlistment.Proofs.Stream.Deployment

/-!
# Preparing requests

Marshalling refuses a request for its first row that the operation does not take, and otherwise
brings all rows into wire form. It may as well be done in place, one change after the other: all
that can fail comes before the first change, so a request that is refused stays as it was.
-/

namespace Enlistment

variable {σ : Type}

/-! ## Marshalling in place -/

namespace EnlistRequest

/-- Flagging in place sets the flag if it is required and there is info to attach. -/
theorem flagInPlace_run (ctx : MarshalContext) (required : Bool) (req : EnlistRequest σ) :
    (flagInPlace ctx required).run req = .ok () { req with
      addDeployment := req.addDeployment || (required && ctx.deployment.isSome) } := by
  unfold flagInPlace
  cases required && ctx.deployment.isSome with
  | true =>
    rw [Bool.or_true]
    rfl
  | false =>
    rw [Bool.or_false]
    rfl

/-- Rows that are refused leave the request as it was. -/
theorem convertInPlace_run (ctx : MarshalContext) (req : EnlistRequest σ) :
    (convertInPlace ctx).run req = match req.marshalRows ctx with
      | .ok converted => .ok () converted
      | .error err => .error err req := by
  unfold convertInPlace marshalRows
  rw [EStateM.run_bind, EStateM.run_get]
  dsimp only
  cases req.pending with
  | none => rfl
  | some rows =>
    dsimp only
    cases convertRows (σ := σ) ctx req.op rows with
    | error err => rfl
    | ok wire => exact flagInPlace_run ctx _ _

/-- The filter is brought into wire form in place as it is in a copy. -/
theorem marshalFilterInPlace_run (ctx : MarshalContext) (req : EnlistRequest σ) :
    (marshalFilterInPlace ctx).run req = .ok () (req.marshalFilter ctx) := by
  unfold marshalFilterInPlace marshalFilter
  rw [EStateM.run_bind, EStateM.run_get]
  dsimp only
  cases req.filter with
  | none => rfl
  | some filter => exact flagInPlace_run ctx _ _

/-- Deployment info is attached in place as it is to a copy. -/
theorem attachInPlace_run (ctx : MarshalContext) (req : EnlistRequest σ) :
    (attachInPlace ctx).run req = .ok () (req.attachDeployment ctx) := by
  unfold attachInPlace attachDeployment
  rw [EStateM.run_bind, EStateM.run_get]
  dsimp only
  split <;> rfl

/-- Marshalling in place ends with the marshalled request, or fails and has changed nothing. -/
theorem marshalInPlace_run (ctx : MarshalContext) (req : EnlistRequest σ) :
    (marshalInPlace ctx).run req = match req.marshal ctx with
      | .ok sent => .ok () sent
      | .error err => .error err req := by
  have hconvert := convertInPlace_run ctx req
  unfold marshalInPlace marshal
  cases hrows : req.marshalRows ctx with
  | error err =>
    rw [hrows] at hconvert
    rw [EStateM.run_bind, hconvert]
    rfl
  | ok converted =>
    have hfilter := marshalFilterInPlace_run ctx converted
    have hattach := attachInPlace_run ctx (converted.marshalFilter ctx)
    rw [hrows] at hconvert
    rw [EStateM.run_bind, hconvert]
    dsimp only
    rw [EStateM.run_bind, hfilter]
    exact hattach

/-! ## Refused requests -/

/-- Why a request is refused: it has rows and no operation, or it has a row that its operation does
not take, and the first of them has this fault. -/
inductive Refused (req : EnlistRequest σ) : MarshalError → Prop
  | missingOperation {rows : List Row} (hrows : req.pending = some rows) (hop : req.op = none)
      (hne : rows ≠ []) : Refused req .missingOperation
  | fault {rows : List Row} {op : Operation} {i : Nat} {row : Row} {err : MarshalError}
      (hrows : req.pending = some rows) (hop : req.op = some op) (hrow : rows[i]? = some row)
      (hfault : row.Fault op i err) (hearlier : ∀ earlier ∈ rows.take i, ¬ earlier.Faulty op) :
      Refused req err

variable {ctx : MarshalContext} {req : EnlistRequest σ}

/-- A request is refused if its rows are. -/
theorem marshal_eq_error_iff {err : MarshalError} : req.marshal ctx = .error err ↔
    ∃ rows, req.pending = some rows ∧ convertRows (σ := σ) ctx req.op rows = .error err := by
  unfold marshal marshalRows
  cases req.pending with
  | none => simp [Except.map]
  | some rows =>
    cases hconvert : convertRows (σ := σ) ctx req.op rows <;> simp [Except.map, hconvert]

/-- A request is refused for the fault of its first row that is faulty. -/
theorem marshal_eq_error_iff_refused {err : MarshalError} :
    req.marshal ctx = .error err ↔ req.Refused err := by
  rw [marshal_eq_error_iff]
  constructor
  · rintro ⟨rows, hrows, hconvert⟩
    cases hop : req.op with
    | none =>
      cases rows with
      | nil => simp [hop, convertRows] at hconvert
      | cons row rest =>
        rw [hop] at hconvert
        obtain rfl := Except.error.inj hconvert
        exact .missingOperation hrows hop (List.cons_ne_nil row rest)
    | some op =>
      have hfrom : convertFrom (σ := σ) ctx op 0 rows = .error err := by
        rw [hop] at hconvert
        cases hfound : convertFrom (σ := σ) ctx op 0 rows with
        | error found => simpa [convertRows, hfound, Except.map] using hconvert
        | ok converted => simp [convertRows, hfound, Except.map] at hconvert
      obtain ⟨i, row, hrow, hfault, hearlier⟩ := convertFrom_eq_error_iff.mp hfrom
      rw [Nat.zero_add] at hfault
      exact .fault hrows hop hrow hfault hearlier
  · intro hrefused
    cases hrefused with
    | @missingOperation rows hrows hop hne =>
      obtain ⟨row, rest, rfl⟩ := List.exists_cons_of_ne_nil hne
      exact ⟨_, hrows, by rw [hop, convertRows]⟩
    | @fault rows op i row _ hrows hop hrow hfault hearlier =>
      have hfrom : convertFrom (σ := σ) ctx op 0 rows = .error err :=
        convertFrom_eq_error_iff.mpr ⟨i, row, hrow, by rwa [Nat.zero_add], hearlier⟩
      exact ⟨rows, hrows, by rw [hop, convertRows, hfrom]; rfl⟩

/-- A request is refused if it has rows and no operation, or any faulty row. -/
theorem exists_marshal_error_iff : (∃ err, req.marshal ctx = .error err) ↔
    ∃ rows, req.pending = some rows ∧
      ((req.op = none ∧ rows ≠ []) ∨ ∃ op, req.op = some op ∧ ∃ row ∈ rows, row.Faulty op) := by
  simp only [marshal_eq_error_iff]
  rw [exists_comm]
  refine exists_congr fun rows => ?_
  rw [exists_and_left, and_congr_right_iff]
  intro _
  cases req.op with
  | none => cases rows <;> simp [convertRows]
  | some op =>
    have hfrom : (∃ err, convertRows (σ := σ) ctx (some op) rows = .error err) ↔
        ∃ err, convertFrom (σ := σ) ctx op 0 rows = .error err := by
      cases hfound : convertFrom (σ := σ) ctx op 0 rows <;> simp [convertRows, hfound, Except.map]
    rw [hfrom, exists_convertFrom_error_iff]
    simp

/-- Rows in wire form carry neither values nor invocations if their operation takes keys alone, or
if there is no operation. -/
theorem convertRows_valuesLength {op : Option Operation} {rows : List Row} {wire : WireRows σ}
    (h : convertRows ctx op rows = .ok wire) :
    wire.valuesLength = none ↔ ∀ o, op = some o → o = .delete ∨ o = .lock := by
  obtain ⟨rfl, -, rfl⟩ | ⟨o, rfl, -, rfl⟩ := convertRows_eq h
  · simp [WireRows.valuesLength]
  · cases o <;>
      simp [wireRowsOf, WireRows.valuesLength, Operation.isDeleteOrLock, Operation.isInvoke]

/-- Preparing a request is exact and leaves nothing half done. Marshalling refuses a request if and
only if it has rows without an operation or a faulty row, and then for the fault of the first faulty
row. Done in place, it leaves a refused request as it was. Otherwise it changes nothing but the
deployment info with its flag, the octets of the filter, and the rows: these have one key each in
wire form, in order, and values or invocations unless the operation is to delete or to lock, or
there is none. Marshalling again changes nothing. -/
theorem marshal_exact (ctx : MarshalContext) (req : EnlistRequest σ) :
    ((∃ err, req.marshal ctx = .error err) ↔ ∃ rows, req.pending = some rows ∧
      ((req.op = none ∧ rows ≠ []) ∨ ∃ op, req.op = some op ∧ ∃ row ∈ rows, row.Faulty op)) ∧
    (∀ err, req.marshal ctx = .error err ↔ req.Refused err) ∧
    (∀ err, req.marshal ctx = .error err → (marshalInPlace ctx).run req = .error err req) ∧
    ∀ sent, req.marshal ctx = .ok sent →
      (marshalInPlace ctx).run req = .ok () sent ∧
      sent = { req with
        base := { req.base with deployment := sent.base.deployment }
        filter := req.filter.map Filter.marshal
        addDeployment := sent.addDeployment
        pending := none
        wire := sent.wire } ∧
      (req.pending = none → sent.wire = req.wire) ∧
      (∀ rows, req.pending = some rows → ∃ wire, sent.wire = some wire ∧
        wire.keys = rows.map (fun row => .ofKey ctx row.keyValue) ∧
        splitRows wire = rows.map (Row.form ctx) ∧
        (wire.valuesLength = none ↔ ∀ op, req.op = some op → op = .delete ∨ op = .lock)) ∧
      sent.marshal ctx = .ok sent ∧ (marshalInPlace ctx).run sent = .ok () sent := by
  refine ⟨exists_marshal_error_iff, fun err => marshal_eq_error_iff_refused, fun err herr => ?_,
    fun sent hsent => ?_⟩
  · rw [marshalInPlace_run, herr]
  · have hagain : sent.marshal ctx = .ok sent := marshal_marshalled hsent id
    obtain ⟨deployment, addDeployment, wire, heq, hwire⟩ := marshal_eq hsent
    refine ⟨by rw [marshalInPlace_run, hsent], by rw [heq], fun hnone => ?_, fun rows hrows => ?_,
      hagain, by rw [marshalInPlace_run, hagain]⟩
    · obtain ⟨-, hsame⟩ | ⟨rows, -, hrows, -⟩ := hwire
      · rw [heq, hsame]
      · cases hnone.symm.trans hrows
    · obtain ⟨hnone, -⟩ | ⟨rows', converted, hrows', hconverted, hconvert⟩ := hwire
      · cases hnone.symm.trans hrows
      · obtain rfl := Option.some.inj (hrows.symm.trans hrows')
        refine ⟨converted, by rw [heq, hconverted], convertRows_keys hconvert,
          splitRows_convertRows hconvert, convertRows_valuesLength hconvert⟩

/-- The second of three rows has a null value and the third one has a null key. The request stays as
it was, with all rows pending. The first row alone is brought into wire form. -/
theorem marshal_exact_of_three_rows :
    let ctx : MarshalContext := .ofCache 5 8
    let first : Row := .entry (.int 1) (.int 2)
    let rows : List Row := [first, .entry (.int 3) .null, .entry .null (.int 4)]
    let req : EnlistRequest Unit := { op := some .upsert, pending := some rows }
    let rest : EnlistRequest Unit := { op := some .upsert, pending := some [first] }
    (marshalInPlace ctx).run req = .error (.missingValue 1) req ∧
      ∃ sent, (marshalInPlace ctx).run rest = .ok () sent ∧ sent.marshal ctx = .ok sent := by
  intro ctx first rows req rest
  obtain ⟨-, hrefused, hunchanged, -⟩ := marshal_exact ctx req
  obtain ⟨-, -, -, hconverted⟩ := marshal_exact ctx rest
  have hfault : (Row.entry (.int 3) .null).Fault .upsert 1 (.missingValue 1) :=
    .missingValue (fun h => by cases h) rfl rfl
  have hsound : ∀ earlier ∈ rows.take 1, ¬ earlier.Faulty .upsert := by
    intro earlier hearlier
    obtain rfl := List.mem_singleton.mp hearlier
    rintro (hkey | ⟨-, hvalue⟩ | hshape)
    · cases hkey
    · cases hvalue
    · exact hshape ⟨rfl, rfl⟩
  obtain ⟨hdone, -, -, -, hagain, -⟩ := hconverted _ rfl
  exact ⟨hunchanged _ ((hrefused _).mpr (.fault rfl rfl rfl hfault hsound)), _, hdone, hagain⟩

end EnlistRequest

end Enlistment
