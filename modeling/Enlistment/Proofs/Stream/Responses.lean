import Enlistment.Proofs.Stream.Requests

/-!
# Responses on the wire

A response whose returned values have octets is encoded through any buffer, and read under the
limit that it keeps to. A receiver that knows the classes of the returned values rebuilds them one
by one, and an absent value stays absent.
-/

namespace Enlistment

open Wire

variable {σ : Type}

/-! ## A response in wire form -/

/-- A response in wire form: all values that it returns have octets. -/
def EnlistResponse.Filled (r : EnlistResponse) : Prop :=
  ∀ values, r.result = some values → ∀ v ∈ values, ∀ o, v.object = some o → o.bytes.isSome = true

/-- A response in wire form can be written. -/
theorem EnlistResponse.Filled.prepared {r : EnlistResponse} (h : r.Filled) :
    responseLayout.Prepared (WireForm.toRecord r) := by
  have hdeployment : ∀ record, r.base.deployment.map WireForm.toRecord = some record →
      deploymentLayout.Prepared record :=
    fun record _ => ⟨rfl, trivial, rfl, trivial, rfl, trivial, trivial⟩
  have hlock : lockLayout.Prepared (WireForm.toRecord r.lock) :=
    ⟨rfl, trivial, rfl, trivial, rfl, trivial, trivial⟩
  have hresult : ∀ records, r.result.map (fun items => items.map WireForm.toRecord) =
      some records → ∀ record ∈ records, returnLayout.Prepared record := by
    intro records hrecords record hrecord
    obtain ⟨values, hvalues, rfl⟩ := Option.map_eq_some_iff.mp hrecords
    obtain ⟨v, hv, rfl⟩ := List.mem_map.mp hrecord
    refine ⟨rfl, fun object hobject => ?_, trivial⟩
    obtain ⟨o, ho, rfl⟩ := Option.map_eq_some_iff.mp hobject
    exact ValueObject.prepared (h values hvalues v hv o ho)
  have herror : ∀ record, r.error.map WireForm.toRecord = some record →
      errorLayout.Prepared record :=
    fun record _ => ⟨rfl, trivial, rfl, trivial, trivial⟩
  have hremap : ∀ record, r.remap.map WireForm.toRecord = some record →
      topologyLayout.Prepared record :=
    fun record _ => ⟨rfl, trivial, rfl, trivial, trivial⟩
  have hfailures : ∀ records, r.rowFailures.map (fun items => items.map WireForm.toRecord) =
      some records → ∀ record ∈ records, failureLayout.Prepared record :=
    fun _ _ record _ => ⟨rfl, trivial, rfl, trivial, trivial⟩
  exact ⟨rfl, hdeployment, rfl, r.base.lastAffinityChange.prepared, rfl, trivial, rfl, trivial,
    rfl, trivial, rfl, trivial, rfl, hlock, rfl, hresult, rfl, trivial, rfl, herror, rfl, hremap,
    rfl, hfailures, trivial⟩

/-- The values that a response returns keep to its limit. -/
theorem EnlistResponse.values_within {limit : Nat} {r : EnlistResponse}
    (h : responseLayout.Within limit (WireForm.toRecord r)) {values : List ReturnValue}
    (hresult : r.result = some values) {v : ReturnValue} (hv : v ∈ values) {o : ValueObject}
    (ho : v.object = some o) {bs : Bytes} (hbs : o.bytes = some bs) : bs.length ≤ limit := by
  simp only [responseLayout, baseFields] at h
  have hvalues : (Field.array returnLayout).Within limit
      (r.result.map fun items => items.map WireForm.toRecord) := h.2.2.2.2.2.2.2.1
  have hall := (hvalues (values.map WireForm.toRecord) (by rw [hresult]; rfl)).2
  have hobject := (hall _ (List.mem_map_of_mem hv)).1 (WireForm.toRecord o) (by
    show v.object.map WireForm.toRecord = _
    rw [ho]
    rfl)
  exact hobject.1 bs hbs

/-- A response in wire form that keeps to a limit can be written, and read under this limit. -/
theorem EnlistResponse.Filled.legible {accepted : List MessageType} {maxLength : Nat}
    {r : EnlistResponse} (h : r.Filled) (haccepted : .response ∈ accepted)
    (hlimit : maxLength ≤ maxWireLength)
    (hwithin : responseLayout.Within maxLength (WireForm.toRecord r)) :
    (Message.response (σ := σ) r).toDraft.Accepted ∧
      (Message.response (σ := σ) r).toDraft.Legible accepted maxLength := by
  have hfits : responseLayout.Within maxWireLength (WireForm.toRecord r) := hwithin.mono hlimit
  exact ⟨Draft.accepted_of_prepared h.prepared hfits, haccepted, r.sound_toRecord, hfits, hwithin⟩

/-! ## Returned values -/

/-- The return value for a value that is complete. -/
def ReturnValue.complete (v : Option Value) : ReturnValue := ⟨v.map .complete⟩

/-- A return value gives back what it was made for. -/
@[simp]
theorem ReturnValue.value_ofValue (v : Option Value) : (ofValue v).value = v := by
  cases v <;> rfl

/-- Return values give back what they were made for. -/
theorem ReturnValue.map_value_ofValue (values : List (Option Value)) :
    (values.map ofValue).map value = values := by
  rw [List.map_map]
  exact (List.map_congr_left fun v _ => value_ofValue v).trans (List.map_id values)

/-- A return value whose value is complete holds this value. -/
@[simp]
theorem ReturnValue.value_complete (v : Option Value) : (complete v).value = v := by
  cases v <;> rfl

/-- A returned value goes on the wire with its octets. -/
theorem ReturnValue.marshal_ofValue (v : Option Value) : (ofValue v).marshal = complete v := by
  cases v <;> rfl

/-- Whether a receiver can rebuild a value that may be absent. -/
def Value.Returnable (keepBinary : Bool) (hasClass : String → Bool) (v : Option Value) : Prop :=
  ∀ w, v = some w → w.Short ∧ w.Readable keepBinary hasClass

/-- Returned values are rebuilt one by one, and an absent one stays absent. -/
theorem unmarshalEach_returned {keepBinary : Bool} {hasClass : String → Bool}
    {values : List (Option Value)} (h : ∀ v ∈ values, Value.Returnable keepBinary hasClass v) :
    unmarshalEach (ReturnValue.unmarshal keepBinary hasClass)
      (values.map fun v => (ReturnValue.complete v).onWire) =
        (.ok (), values.map ReturnValue.complete) := by
  induction values with
  | nil => rfl
  | cons v rest ih =>
    obtain ⟨hv, hrest⟩ := List.forall_mem_cons.mp h
    have hfirst : (ReturnValue.complete v).onWire.unmarshal keepBinary hasClass =
        (.ok (), ReturnValue.complete v) := by
      cases v with
      | none => rfl
      | some w =>
        obtain ⟨hshort, hread⟩ := hv w rfl
        have hw := ValueObject.unmarshal_complete hshort hread
        simp only [ReturnValue.complete, ReturnValue.onWire, Option.map_some,
          ReturnValue.unmarshal, hw]
    simp only [List.map_cons, unmarshalEach, hfirst, ih hrest]

/-- A response that returns values is rebuilt with these values and is otherwise as it was. -/
theorem EnlistResponse.unmarshal_returned {keepBinary : Bool} {hasClass : String → Bool}
    {r : EnlistResponse} {values : List (Option Value)}
    (hresult : r.result = some (values.map ReturnValue.ofValue))
    (h : ∀ v ∈ values, Value.Returnable keepBinary hasClass v) :
    r.marshal.onWire.unmarshal keepBinary hasClass =
      (.ok (), { r with result := some (values.map ReturnValue.complete) }) := by
  have hwire : r.marshal.onWire.result =
      some (values.map fun v => (ReturnValue.complete v).onWire) := by
    simp only [marshal, onWire, hresult, Option.map_some, List.map_map]
    exact congrArg some (List.map_congr_left fun v _ =>
      congrArg ReturnValue.onWire (ReturnValue.marshal_ofValue v))
  simp only [unmarshal, hwire, unmarshalEach_returned h]
  rfl

/-- A response that returns nothing is rebuilt as it was. -/
theorem EnlistResponse.unmarshal_empty {keepBinary : Bool} {hasClass : String → Bool}
    {r : EnlistResponse} (hresult : r.result = none) :
    r.marshal.onWire.unmarshal keepBinary hasClass = (.ok (), r) := by
  have hsame : r.marshal.onWire = r := by
    obtain ⟨base, futureId, mini, lock, result, updateCount, error, remap, failures⟩ := r
    obtain rfl : result = none := hresult
    rfl
  rw [hsame]
  simp only [unmarshal, hresult]

end Enlistment
