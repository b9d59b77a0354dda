import Enlistment.Proofs.Message.Shape

/-!
# Marshalling keeps messages in shape

Rows that are brought into wire form fit their operation, and neither marshalling nor
unmarshalling takes from a filter what its kind needs.
-/

namespace Enlistment

open Wire

variable {σ : Type}

/-! ## Filters -/

/-- A filter whose kind is as good as its operand and class is in shape. -/
theorem Filter.shaped_of_kind {f : Filter σ}
    (h : f.kind = .hasValue ∨ f.kind = .noValue ∨
      (f.kind = .containsValue ∧ f.operand.isSome = true) ∨
      (f.kind = .custom ∧ f.className.isSome = true)) : f.Shaped := by
  rcases h with h | h | ⟨h, hoperand⟩ | ⟨h, hclass⟩
  · constructor <;> intro hkind <;> rw [h] at hkind <;> cases hkind
  · constructor <;> intro hkind <;> rw [h] at hkind <;> cases hkind
  · refine ⟨fun _ => hoperand, fun hkind => ?_⟩
    rw [h] at hkind
    cases hkind
  · refine ⟨fun hkind => ?_, fun _ => hclass⟩
    rw [h] at hkind
    cases hkind

/-- Marshalling keeps a filter in shape. -/
theorem Filter.Shaped.marshal {f : Filter σ} (h : f.Shaped) : f.marshal.Shaped := by
  refine ⟨fun hkind => ?_, h.className⟩
  have hoperand := h.operand hkind
  show (f.operand.map ValueObject.marshal).isSome = true
  rwa [Option.isSome_map]

/-- Unmarshalling keeps a filter in shape, also if it fails. -/
theorem Filter.Shaped.unmarshal {f : Filter σ} (h : f.Shaped) (keepBinary : Bool)
    (loader : ClassLoader σ) : (f.unmarshal keepBinary loader).2.Shaped := by
  obtain ⟨kind, operand, className, resolved⟩ := f
  obtain ⟨hoperand, hclass⟩ := h
  have hshaped : ∀ o r, (operand.isSome = true → o.isSome = true) →
      ({ kind, operand := o, className, resolved := r } : Filter σ).Shaped :=
    fun o r ho => ⟨fun hkind => ho (hoperand hkind), hclass⟩
  unfold Filter.unmarshal
  dsimp only
  split
  · refine hshaped _ _ fun ho => ?_
    cases operand with
    | none => cases ho
    | some o => rfl
  · refine hshaped _ _ fun ho => ?_
    cases operand with
    | none => cases ho
    | some o => rfl
  · split <;>
    · refine hshaped _ _ fun ho => ?_
      cases operand with
      | none => cases ho
      | some o => rfl

/-- A filter in wire form has the value of its operand. -/
theorem Filter.requiresDeployment_marshal (f : Filter σ) :
    f.marshal.requiresDeployment = f.requiresDeployment := by
  have hvalue : ∀ o : ValueObject, o.marshal.value = o.value := by
    intro o
    unfold ValueObject.marshal
    split <;> rfl
  unfold requiresDeployment operandValue marshal
  cases f.operand with
  | none => rfl
  | some o => simp only [Option.map_some, Option.bind_some, hvalue]

/-! ## Rows -/

/-- Whether a row has the shape that an operation takes. -/
def Row.Fits (op : Operation) : Row → Prop
  | key _ => op.isDeleteOrLock = true
  | entry _ _ => op.isDeleteOrLock = false ∧ op.isInvoke = false
  | invoke _ _ => op.isInvoke = true

/-- An object with a value and its octets. -/
def ValueObject.complete (v : Value) : ValueObject := { bytes := some v.encode, value := some v }

/-- The form of a row on the side of its sender. -/
def Row.form (ctx : MarshalContext) : Row → EnlistedRow σ
  | key k => .key (.ofKey ctx k)
  | entry k v => .entry (.ofKey ctx k) (.complete v)
  | invoke k i =>
    .invoke (.ofKey ctx k) { processor := i.processor, args := i.args.map ValueObject.complete }

/-- A row that is converted fits the operation, and its form does not depend on it. -/
theorem EnlistRequest.convertRow_eq {ctx : MarshalContext} {op : Operation} {index : Nat}
    {row : Row} {converted : EnlistedRow σ} (h : convertRow ctx op index row = .ok converted) :
    row.Fits op ∧ converted = row.form ctx := by
  unfold convertRow at h
  split at h
  · cases h
  · cases row with
    | key k =>
      simp only at h
      split at h
      · next hop => exact ⟨hop, (Except.ok.inj h).symm⟩
      · split at h <;> cases h
    | entry k v =>
      simp only at h
      split at h
      · cases h
      · next hop =>
        split at h
        · cases h
        · simp only [Bool.or_eq_true, not_or, Bool.not_eq_true] at hop
          exact ⟨hop, (Except.ok.inj h).symm⟩
    | invoke k i =>
      simp only at h
      split at h
      · next hop => exact ⟨hop, (Except.ok.inj h).symm⟩
      · cases h

/-- Rows that are converted fit the operation, and their forms are those of each of them. -/
theorem EnlistRequest.convertFrom_eq {ctx : MarshalContext} {op : Operation} {index : Nat}
    {rows : List Row} {converted : List (EnlistedRow σ)}
    (h : convertFrom ctx op index rows = .ok converted) :
    (∀ row ∈ rows, row.Fits op) ∧ converted = rows.map (Row.form ctx) := by
  induction rows generalizing index converted with
  | nil =>
    obtain rfl := Except.ok.inj h
    exact ⟨List.forall_mem_nil _, rfl⟩
  | cons row rest ih =>
    unfold convertFrom at h
    cases hrow : convertRow (σ := σ) ctx op index row with
    | error e => simp [hrow, bind, Except.bind] at h
    | ok first =>
      cases hrest : convertFrom (σ := σ) ctx op (index + 1) rest with
      | error e => simp [hrow, hrest, bind, Except.bind] at h
      | ok others =>
        simp only [hrow, hrest, bind, Except.bind, Except.ok.injEq] at h
        obtain ⟨hfits, rfl⟩ := convertRow_eq hrow
        obtain ⟨hfitsRest, rfl⟩ := ih hrest
        exact ⟨List.forall_mem_cons.mpr ⟨hfits, hfitsRest⟩, h.symm⟩

/-- The caller's rows in wire form are the forms of each of them, put together; without an
operation there are none. -/
theorem EnlistRequest.convertRows_eq {ctx : MarshalContext} {op : Option Operation}
    {rows : List Row} {wire : WireRows σ} (h : convertRows ctx op rows = .ok wire) :
    (op = none ∧ rows = [] ∧ wire = .keysOnly []) ∨
      ∃ o, op = some o ∧ (∀ row ∈ rows, row.Fits o) ∧
        wire = wireRowsOf o (rows.map (Row.form ctx)) := by
  cases op with
  | none =>
    cases rows with
    | nil => exact .inl ⟨rfl, rfl, (Except.ok.inj h).symm⟩
    | cons row rest => cases h
  | some op =>
    cases hrows : convertFrom (σ := σ) ctx op 0 rows with
    | error e => simp [convertRows, hrows, Except.map] at h
    | ok converted =>
      simp only [convertRows, hrows, Except.map, Except.ok.injEq] at h
      obtain ⟨hfits, rfl⟩ := convertFrom_eq hrows
      exact .inr ⟨op, rfl, hfits, h.symm⟩

/-- Rows in wire form have the keys of the caller's rows, in order. -/
theorem EnlistRequest.convertRows_keys {ctx : MarshalContext} {op : Option Operation} {rows : List Row}
    {wire : WireRows σ} (h : convertRows ctx op rows = .ok wire) :
    wire.keys = rows.map fun row => .ofKey ctx row.keyValue := by
  obtain ⟨-, rfl, rfl⟩ | ⟨o, -, -, rfl⟩ := convertRows_eq h
  · rfl
  · have hkeys : (rows.map (Row.form (σ := σ) ctx)).map EnlistedRow.keyObject =
        rows.map fun row => .ofKey ctx row.keyValue := by
      rw [List.map_map]
      refine List.map_congr_left fun row _ => ?_
      cases row <;> rfl
    rw [← hkeys]
    unfold wireRowsOf
    split
    · rfl
    · split <;> rfl

/-- The form of a row that fits an operation has what the operation needs besides the key. -/
theorem Row.Fits.shape {op : Operation} {row : Row} (h : row.Fits op) (ctx : MarshalContext) :
    (op.isInvoke = true → (row.form (σ := σ) ctx).invocation?.isSome = true) ∧
      (op.isDeleteOrLock = false → op.isInvoke = false →
        (row.form (σ := σ) ctx).valueObject?.isSome = true) := by
  cases row with
  | key k =>
    refine ⟨fun hinvoke => ?_, fun hkeys => ?_⟩
    · cases h.symm.trans (Operation.isDeleteOrLock_of_isInvoke hinvoke)
    · cases h.symm.trans hkeys
  | entry k v =>
    refine ⟨fun hinvoke => ?_, fun _ _ => rfl⟩
    cases hinvoke.symm.trans h.2
  | invoke k i =>
    refine ⟨fun _ => rfl, fun _ hinvoke => ?_⟩
    cases Eq.trans (Eq.symm h) hinvoke

/-- Rows of one shape fit their operation once they are put together. -/
theorem EnlistRequest.wireRowsOf_fits {op : Operation} {rows : List (EnlistedRow σ)}
    (h : ∀ r ∈ rows, (op.isInvoke = true → r.invocation?.isSome = true) ∧
      (op.isDeleteOrLock = false → op.isInvoke = false → r.valueObject?.isSome = true)) :
    (wireRowsOf op rows).Fits (some op) := by
  have hcount : ∀ {A : Type} (f : EnlistedRow σ → Option A),
      (∀ r ∈ rows, (f r).isSome = true) →
        (rows.filterMap f).length = (rows.map EnlistedRow.keyObject).length := by
    intro A f hf
    rw [List.length_map]
    exact List.filterMap_length_eq_length.mpr hf
  unfold wireRowsOf
  by_cases hkeys : op.isDeleteOrLock = true
  · rw [if_pos hkeys]
    intro o ho
    rwa [← Option.some.inj ho]
  · rw [if_neg hkeys]
    have hkeys' : op.isDeleteOrLock = false := eq_false_of_ne_true hkeys
    by_cases hinvoke : op.isInvoke = true
    · rw [if_pos hinvoke]
      exact ⟨hcount _ fun r hr => (h r hr).1 hinvoke, op, rfl, hinvoke⟩
    · rw [if_neg hinvoke]
      have hinvoke' : op.isInvoke = false := eq_false_of_ne_true hinvoke
      refine ⟨hcount _ fun r hr => (h r hr).2 hkeys' hinvoke', fun o ho => ?_⟩
      rw [← Option.some.inj ho]
      exact ⟨hkeys', hinvoke'⟩

/-- Rows that are brought into wire form fit their operation. -/
theorem EnlistRequest.convertRows_fits {ctx : MarshalContext} {op : Option Operation}
    {rows : List Row} {wire : WireRows σ} (h : convertRows ctx op rows = .ok wire) :
    wire.Fits op := by
  obtain ⟨rfl, -, rfl⟩ | ⟨o, rfl, hfits, rfl⟩ := convertRows_eq h
  · intro o ho
    cases ho
  · refine wireRowsOf_fits fun r hr => ?_
    obtain ⟨row, hrow, rfl⟩ := List.mem_map.mp hr
    exact (hfits row hrow).shape ctx

/-! ## Requests -/

namespace EnlistRequest

/-- Bringing the filter into wire form flags a request whose filter refers to user classes, if there
is deployment info, and leaves the rest of it alone. -/
theorem marshalFilter_eq (ctx : MarshalContext) (req : EnlistRequest σ) :
    req.marshalFilter ctx = { req with
      filter := req.filter.map Filter.marshal
      addDeployment := req.addDeployment ||
        (req.filter.any Filter.requiresDeployment && ctx.deployment.isSome) } := by
  obtain ⟨_, _, filter, _, _, _, _, _, _, _, _, _, _, _, _, addDeployment, _, _, _⟩ := req
  cases filter with
  | none =>
    simp only [marshalFilter, Option.map_none, Option.any_none, Bool.false_and, Bool.or_false]
  | some f =>
    simp only [marshalFilter, Filter.requiresDeployment_marshal, Option.map_some, Option.any_some]

/-- Deployment info is added to a flagged request that has none, and the rest of it is left
alone. -/
theorem attachDeployment_eq (ctx : MarshalContext) (req : EnlistRequest σ) :
    req.attachDeployment ctx = { req with base := { req.base with
      deployment := if req.addDeployment then req.base.deployment.or ctx.deployment
        else req.base.deployment } } := by
  obtain ⟨⟨deployment, _, _, _⟩, _, _, _, _, _, _, _, _, _, _, _, _, _, _, addDeployment, _, _,
    _⟩ := req
  cases addDeployment <;> cases deployment <;> rfl

/-- Marshalling converts the pending rows of a request, if it has any, and then brings its filter
into wire form and adds deployment info. -/
theorem marshal_cases {ctx : MarshalContext} {req req' : EnlistRequest σ}
    (h : req.marshal ctx = .ok req') :
    ∃ converted : EnlistRequest σ, req' = (converted.marshalFilter ctx).attachDeployment ctx ∧
      ((req.pending = none ∧ converted = req) ∨
        ∃ rows wire, req.pending = some rows ∧ convertRows ctx req.op rows = .ok wire ∧
          converted = { req with
            wire := some wire
            pending := none
            addDeployment := req.addDeployment ||
              (rowsRequireDeployment req.op rows && ctx.deployment.isSome) }) := by
  unfold marshal marshalRows at h
  cases hpending : req.pending with
  | none =>
    simp only [hpending, Except.map, Except.ok.injEq] at h
    exact ⟨req, h.symm, .inl ⟨rfl, rfl⟩⟩
  | some rows =>
    cases hwire : convertRows (σ := σ) ctx req.op rows with
    | error e => simp [hpending, hwire, Except.map] at h
    | ok wire =>
      simp only [hpending, hwire, Except.map, Except.ok.injEq] at h
      exact ⟨_, h.symm, .inr ⟨rows, wire, rfl, hwire, rfl⟩⟩

/-- Marshalling brings the pending rows and the filter of a request into wire form, adds
deployment info and changes nothing else. -/
theorem marshal_eq {ctx : MarshalContext} {req req' : EnlistRequest σ}
    (h : req.marshal ctx = .ok req') :
    ∃ deployment addDeployment wire,
      req' = { req with
        base := { req.base with deployment := deployment }
        filter := req.filter.map Filter.marshal
        addDeployment := addDeployment
        pending := none
        wire := wire } ∧
      ((req.pending = none ∧ wire = req.wire) ∨
        ∃ rows w, req.pending = some rows ∧ wire = some w ∧ convertRows ctx req.op rows = .ok w) := by
  obtain ⟨converted, rfl, hconverted⟩ := marshal_cases h
  rw [marshalFilter_eq, attachDeployment_eq]
  obtain ⟨hpending, rfl⟩ | ⟨rows, wire, hpending, hconvert, rfl⟩ := hconverted
  · exact ⟨_, _, converted.wire, by rw [hpending], .inl ⟨hpending, rfl⟩⟩
  · exact ⟨_, _, some wire, rfl, .inr ⟨rows, wire, hpending, rfl, hconvert⟩⟩

/-- Unmarshalling rebuilds the filter of a request, also if it fails. -/
theorem filter_unmarshal (req : EnlistRequest σ) (loader : ClassLoader σ) :
    (req.unmarshal loader).2.filter =
      req.filter.map fun f => (f.unmarshal req.keepBinary loader).2 := by
  have hfilter : (req.unmarshalFilter loader).2.filter =
      req.filter.map fun f => (f.unmarshal req.keepBinary loader).2 := by
    unfold unmarshalFilter
    cases hf : req.filter with
    | none => exact hf
    | some f => rfl
  have hrows : ∀ req : EnlistRequest σ, (req.unmarshalRows loader).2.filter = req.filter := by
    intro req
    unfold unmarshalRows
    split
    · rfl
    · split
      · rfl
      · split <;> rfl
  unfold unmarshal
  rcases hr : req.unmarshalFilter loader with ⟨_ | _, req₁⟩ <;> rw [hr] at hfilter
  · exact hfilter
  · exact (hrows req₁).trans hfilter

end EnlistRequest

namespace EnlistRequest.Shaped

variable {req req' : EnlistRequest σ}

/-- Marshalling keeps a request in shape. -/
theorem marshal {ctx : MarshalContext} (h : req.Shaped) (hreq : req.marshal ctx = .ok req') :
    req'.Shaped := by
  obtain ⟨deployment, addDeployment, wire, rfl, hwire⟩ := marshal_eq hreq
  refine ⟨fun f hf => ?_, fun rows hrows => ?_⟩
  · obtain ⟨f₀, hf₀, rfl⟩ := Option.map_eq_some_iff.mp hf
    exact (h.filter f₀ hf₀).marshal
  · obtain ⟨-, rfl⟩ | ⟨rows', w, -, rfl, hconvert⟩ := hwire
    · exact h.rows rows hrows
    · obtain rfl := Option.some.inj hrows
      exact convertRows_fits hconvert

/-- Rebuilding the filter of a request keeps it in shape. -/
theorem unmarshalFilter (h : req.Shaped) (loader : ClassLoader σ) :
    (req.unmarshalFilter loader).2.Shaped := by
  unfold EnlistRequest.unmarshalFilter
  split
  · exact h
  · next f hf =>
    refine ⟨fun f' hf' => ?_, h.rows⟩
    rw [← Option.some.inj hf']
    exact (h.filter f hf).unmarshal req.keepBinary loader

/-- Rebuilding the rows of a request keeps it in shape. -/
theorem unmarshalRows (h : req.Shaped) (loader : ClassLoader σ) :
    (req.unmarshalRows loader).2.Shaped := by
  unfold EnlistRequest.unmarshalRows
  split
  · exact ⟨h.filter, h.rows⟩
  · split
    · exact h
    · split <;> exact ⟨h.filter, fun r hr => by cases hr⟩

/-- Unmarshalling keeps a request in shape, also if it fails. -/
theorem unmarshal (h : req.Shaped) (loader : ClassLoader σ) :
    (req.unmarshal loader).2.Shaped := by
  have hfilter := h.unmarshalFilter loader
  unfold EnlistRequest.unmarshal
  rcases hr : req.unmarshalFilter loader with ⟨_ | _, req₁⟩ <;> rw [hr] at hfilter
  · exact hfilter
  · exact hfilter.unmarshalRows loader

end EnlistRequest.Shaped

end Enlistment
