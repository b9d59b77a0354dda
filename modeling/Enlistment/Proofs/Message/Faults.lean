import Enlistment.Proofs.Message.Marshalling

/-!
# Faults of rows

An operation takes rows of one shape, with keys and values that are not null. A row that it does
not take has a fault, and only one: a null key counts before a missing value, and a missing value
before the shape. The rows of a batch are refused for the fault of the first row that has one.
-/

namespace Enlistment

variable {σ : Type}

/-- Whether rows of an operation carry values. -/
def Operation.takesValue (op : Operation) : Bool := !op.isDeleteOrLock && !op.isInvoke

namespace Row

/-- Whether a row has a null value, or neither a value nor an invocation. -/
def LacksValue : Row → Prop
  | key _ => True
  | entry _ v => v = .null
  | invoke _ _ => False

/-- Whether an operation does not take a row. -/
def Faulty (op : Operation) (row : Row) : Prop :=
  row.keyValue = .null ∨ (op.takesValue = true ∧ row.LacksValue) ∨ ¬ row.Fits op

/-- Why an operation does not take the row at some position. -/
inductive Fault (op : Operation) (index : Nat) (row : Row) : MarshalError → Prop
  | nullKey (hkey : row.keyValue = .null) : Fault op index row (.nullKey index)
  | missingValue (hkey : row.keyValue ≠ .null) (hop : op.takesValue = true)
      (hvalue : row.LacksValue) : Fault op index row (.missingValue index)
  | rowShape (hkey : row.keyValue ≠ .null) (hvalue : ¬ (op.takesValue = true ∧ row.LacksValue))
      (hshape : ¬ row.Fits op) : Fault op index row (.rowShape index op)

/-- A row that an operation does not take has a fault. -/
theorem faulty_iff {op : Operation} {row : Row} (index : Nat) :
    row.Faulty op ↔ ∃ err, row.Fault op index err := by
  constructor
  · intro h
    by_cases hkey : row.keyValue = .null
    · exact ⟨_, .nullKey hkey⟩
    · by_cases hvalue : op.takesValue = true ∧ row.LacksValue
      · exact ⟨_, .missingValue hkey hvalue.1 hvalue.2⟩
      · exact ⟨_, .rowShape hkey hvalue ((h.resolve_left hkey).resolve_left hvalue)⟩
  · rintro ⟨err, hfault⟩
    cases hfault with
    | nullKey hkey => exact .inl hkey
    | missingValue hkey hop hvalue => exact .inr (.inl ⟨hop, hvalue⟩)
    | rowShape hkey hvalue hshape => exact .inr (.inr hshape)

end Row

/-- No value is null but the null value. -/
theorem Value.isNull_iff {v : Value} : v.isNull = true ↔ v = .null := by
  cases v <;> simp [isNull]

namespace EnlistRequest

variable {ctx : MarshalContext} {op : Operation}

/-- A row whose key is not null is taken, unless it lacks a value or has another shape. -/
theorem convertRow_cases (ctx : MarshalContext) (op : Operation) {row : Row}
    (hkey : row.keyValue ≠ .null) (index : Nat) :
    ((op.takesValue = true ∧ row.LacksValue) ∧
        convertRow (σ := σ) ctx op index row = .error (.missingValue index)) ∨
      (¬ (op.takesValue = true ∧ row.LacksValue) ∧ ¬ row.Fits op ∧
        convertRow (σ := σ) ctx op index row = .error (.rowShape index op)) ∨
      (¬ (op.takesValue = true ∧ row.LacksValue) ∧ row.Fits op ∧
        ∃ converted, convertRow (σ := σ) ctx op index row = .ok converted) := by
  have hnull : row.keyValue.isNull = false :=
    eq_false_of_ne_true fun h => hkey (Value.isNull_iff.mp h)
  cases row with
  | key k =>
    cases hkeys : op.isDeleteOrLock <;> cases hinvoke : op.isInvoke <;>
      simp [convertRow, hnull, Operation.takesValue, Row.LacksValue, Row.Fits, hkeys, hinvoke]
  | entry k v =>
    by_cases hv : v = .null
    · subst hv
      cases hkeys : op.isDeleteOrLock <;> cases hinvoke : op.isInvoke <;>
        simp [convertRow, Operation.takesValue, Row.LacksValue, Row.Fits, hkeys, hinvoke,
          Value.isNull]
    · have hv' : v.isNull = false := eq_false_of_ne_true fun h => hv (Value.isNull_iff.mp h)
      cases hkeys : op.isDeleteOrLock <;> cases hinvoke : op.isInvoke <;>
        simp [convertRow, hnull, Operation.takesValue, Row.LacksValue, Row.Fits, hkeys, hinvoke, hv,
          hv']
  | invoke k i =>
    cases hinvoke : op.isInvoke <;>
      simp [convertRow, hnull, Operation.takesValue, Row.LacksValue, Row.Fits, hinvoke]

/-- A row is refused for its fault. -/
theorem convertRow_eq_error_iff {index : Nat} {row : Row} {err : MarshalError} :
    convertRow (σ := σ) ctx op index row = .error err ↔ row.Fault op index err := by
  by_cases hkey : row.keyValue = .null
  · have hrow : convertRow (σ := σ) ctx op index row = .error (.nullKey index) := by
      unfold convertRow
      rw [if_pos (Value.isNull_iff.mpr hkey)]
    rw [hrow]
    constructor
    · intro h
      obtain rfl := Except.error.inj h
      exact .nullKey hkey
    · intro h
      cases h with
      | nullKey => rfl
      | missingValue hne => exact absurd hkey hne
      | rowShape hne => exact absurd hkey hne
  · obtain ⟨hvalue, hrow⟩ | ⟨hvalue, hshape, hrow⟩ | ⟨hvalue, hfits, converted, hrow⟩ :=
      convertRow_cases (σ := σ) ctx op hkey index <;> rw [hrow]
    · constructor
      · intro h
        obtain rfl := Except.error.inj h
        exact .missingValue hkey hvalue.1 hvalue.2
      · intro h
        cases h with
        | nullKey hnull => exact absurd hnull hkey
        | missingValue => rfl
        | rowShape _ hnone => exact absurd hvalue hnone
    · constructor
      · intro h
        obtain rfl := Except.error.inj h
        exact .rowShape hkey hvalue hshape
      · intro h
        cases h with
        | nullKey hnull => exact absurd hnull hkey
        | missingValue _ hop hlacks => exact absurd ⟨hop, hlacks⟩ hvalue
        | rowShape => rfl
    · constructor
      · intro h
        cases h
      · intro h
        cases h with
        | nullKey hnull => exact absurd hnull hkey
        | missingValue _ hop hlacks => exact absurd ⟨hop, hlacks⟩ hvalue
        | rowShape _ _ hshape => exact absurd hfits hshape

/-- Rows are refused for the fault of the first row, or, if that has none, for that of the
others. -/
theorem convertFrom_cons_eq_error_iff {row : Row} {rest : List Row} {index : Nat}
    {err : MarshalError} :
    convertFrom (σ := σ) ctx op index (row :: rest) = .error err ↔
      row.Fault op index err ∨
        (¬ row.Faulty op ∧ convertFrom (σ := σ) ctx op (index + 1) rest = .error err) := by
  have hfault : ∀ e, row.Fault op index e ↔ convertRow (σ := σ) ctx op index row = .error e :=
    fun e => convertRow_eq_error_iff.symm
  rw [Row.faulty_iff index]
  simp only [hfault]
  rw [convertFrom]
  cases convertRow (σ := σ) ctx op index row with
  | error e => simp [bind, Except.bind]
  | ok converted =>
    cases convertFrom (σ := σ) ctx op (index + 1) rest <;> simp [bind, Except.bind]

/-- Rows are refused for the fault of the first one that has any. -/
theorem convertFrom_eq_error_iff {rows : List Row} {index : Nat} {err : MarshalError} :
    convertFrom (σ := σ) ctx op index rows = .error err ↔
      ∃ i row, rows[i]? = some row ∧ row.Fault op (index + i) err ∧
        ∀ earlier ∈ rows.take i, ¬ earlier.Faulty op := by
  induction rows generalizing index with
  | nil => simp [convertFrom]
  | cons row rest ih =>
    rw [convertFrom_cons_eq_error_iff, ih]
    constructor
    · rintro (hfault | ⟨hsound, i, found, hfound, hfault, hearlier⟩)
      · exact ⟨0, row, rfl, hfault, fun _ hnil => by cases hnil⟩
      · rw [Nat.add_assoc, Nat.add_comm 1] at hfault
        exact ⟨i + 1, found, hfound, hfault, List.forall_mem_cons.mpr ⟨hsound, hearlier⟩⟩
    · rintro ⟨i, found, hfound, hfault, hearlier⟩
      cases i with
      | zero =>
        obtain rfl := Option.some.inj hfound
        exact .inl hfault
      | succ i =>
        obtain ⟨hsound, hothers⟩ := List.forall_mem_cons.mp hearlier
        rw [Nat.add_comm i, ← Nat.add_assoc] at hfault
        exact .inr ⟨hsound, i, found, hfound, hfault, hothers⟩

/-- Rows are refused if any of them is faulty. -/
theorem exists_convertFrom_error_iff {rows : List Row} {index : Nat} :
    (∃ err, convertFrom (σ := σ) ctx op index rows = .error err) ↔ ∃ row ∈ rows, row.Faulty op := by
  induction rows generalizing index with
  | nil => simp [convertFrom]
  | cons row rest ih =>
    simp only [convertFrom_cons_eq_error_iff, exists_or, exists_and_left, ih, ← Row.faulty_iff,
      List.mem_cons, exists_eq_or_imp]
    rw [or_and_left, and_iff_right (Classical.em _)]

end EnlistRequest

end Enlistment
