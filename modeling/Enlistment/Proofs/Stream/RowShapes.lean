import Enlistment.Proofs.Stream.RoundTrip

/-!
# Which rows a request may bring

The keys of a request may be absent, and so may what goes with them. Which of the combinations
are rows of an operation is a matter of these alone, and of the numbers of keys and of values. A
request whose fields are there is received if its rows are, and fails otherwise.
-/

namespace Enlistment

open Wire

/-! ## Shapes -/

/-- Whether keys and values, absent or of some numbers, make up rows of an operation. Without an
operation keys may come with or without values. -/
def rowsAllowed : (op : Option Operation) → (keys values : Option Nat) → Bool
  | _, none, values => values.isNone
  | some .delete, some _, values | some .lock, some _, values => values.isNone
  | some _, some keys, values => values == some keys
  | none, some keys, values => values.isNone || values == some keys

/-- The number of values or invocations that have come in. -/
def Wire.ValuesSlot.arrivedCount {R Q : Type} (slot : ValuesSlot R Q) : Option Nat :=
  (slot.inboundValues.map List.length).or (slot.inboundInvocations.map List.length)

/-- Whether the keys and the values of a request, as they have come in, make up rows of its
operation. -/
def arrivedRowsAllowed : RequestRecord → Bool
  | ⟨_, _, _, _, _, _, _, _, _, keys, _, _, _, _, op, _, _, _, _, _, values, ()⟩ =>
    rowsAllowed (Operation.ofOrdinal? op) (keys.inbound.map List.length) values.arrivedCount

/-- Keys and values of a kind that the operation selects fit it exactly if their numbers do. -/
theorem rowsFit_iff_rowsAllowed {K V I : Type} {op : Option Operation} {keys : Option (List K)}
    {items : Option (List V ⊕ List I)}
    (hkind : ∀ found, items = some found → (found.isRight = true ↔ op = some .invoke)) :
    RowsFit op keys items ↔ rowsAllowed op (keys.map List.length)
      (items.map (Sum.elim List.length List.length)) = true := by
  cases keys with
  | none => cases items <;> simp [RowsFit, rowsAllowed]
  | some ks =>
    rcases items with _ | values | invocations
    · rcases op with _ | op
      · simp [RowsFit, ValuesFit, rowsAllowed]
      · cases op <;> simp [RowsFit, ValuesFit, rowsAllowed, Operation.isDeleteOrLock]
    · have hop : op ≠ some .invoke := fun hop => by cases (hkind _ rfl).mpr hop
      rcases op with _ | op
      · simp [RowsFit, ValuesFit, rowsAllowed]
      · cases op <;>
          simp_all [RowsFit, ValuesFit, rowsAllowed, Operation.isDeleteOrLock, Operation.isInvoke]
    · obtain rfl : op = some .invoke := (hkind _ rfl).mp rfl
      simp [RowsFit, ValuesFit, rowsAllowed, Operation.isInvoke]

/-! ## Settling -/

/-- Rows are put together exactly if they fit their operation. -/
theorem assembleRows_isOk_iff (tag : Int8) (keys : Option (List KeyRecord))
    (items : Option (List ValueRecord ⊕ List InvokeRecord)) :
    (assembleRows tag { inbound := keys } { inboundValues := items.bind Sum.getLeft?
                                            inboundInvocations := items.bind Sum.getRight? }).1 =
      .ok () ↔ RowsFit (Operation.ofOrdinal? tag) keys items := by
  constructor
  · intro h
    rcases hrows : assembleRows tag { inbound := keys }
      { inboundValues := items.bind Sum.getLeft?
        inboundInvocations := items.bind Sum.getRight? } with ⟨check, keys', values'⟩
    rw [hrows] at h
    obtain rfl : check = .ok () := h
    have hfit := assembleRows_fit hrows
    obtain ⟨rfl, rfl⟩ := assembleRows_eq hrows
    rcases items with _ | items | items <;> exact hfit
  · intro h
    rw [assembleRows_of_fit h]

/-- Values that are not put together with keys make a message malformed. -/
theorem assembleValues_error {op : Option Operation} {keys : List KeyRecord}
    {values : Option (List ValueRecord)} {invocations : Option (List InvokeRecord)}
    {e : CodecError} (h : assembleValues op keys values invocations = .error e) :
    ∃ fault, e = .invalidPayload fault := by
  unfold assembleValues at h
  dsimp only at h
  repeat' split at h
  all_goals first
    | exact ⟨_, (Except.error.inj h).symm⟩
    | cases h

/-- Rows that are not put together make a message malformed. -/
theorem assembleRows_error {tag : Int8} {keys : RequestKeys} {values : RequestValues}
    {e : CodecError} (h : (assembleRows tag keys values).1 = .error e) :
    ∃ fault, e = .invalidPayload fault := by
  unfold assembleRows at h
  cases hkeys : keys.inbound with
  | none =>
    simp only [hkeys] at h
    split at h
    · next e' herror =>
      obtain rfl : e' = e := Except.error.inj h
      split at herror
      · exact ⟨_, (Except.error.inj herror).symm⟩
      · cases herror
    · cases h
  | some ks =>
    simp only [hkeys] at h
    cases hitems : assembleValues (Operation.ofOrdinal? tag) ks values.inboundValues
        values.inboundInvocations with
    | ok items =>
      simp only [hitems, Except.map] at h
      cases h
    | error e' =>
      simp only [hitems, Except.map] at h
      obtain rfl : e' = e := Except.error.inj h
      exact assembleValues_error hitems

/-- Keys and values that are spelled are put together exactly if they make up rows of the
operation before the values. -/
theorem assembleRows_isOk_of_spells {limit : Nat} {tag tag' : Int8} {keys : RequestKeys}
    {values : RequestValues} {front back : Bytes}
    (htag : ordinalAllowed Operation.all.length true tag = true)
    (hkeys : (Field.keys keyLayout).Spells limit tag' keys front)
    (hvalues : (Field.values Operation.invoke.ordinal valueLayout invokeLayout).Spells limit tag
      values back) :
    (assembleRows tag keys values).1 = .ok () ↔
      rowsAllowed (Operation.ofOrdinal? tag) (keys.inbound.map List.length)
        values.arrivedCount = true := by
  have hop : tag = Operation.invoke.ordinal ↔ Operation.ofOrdinal? tag = some .invoke := by
    constructor
    · rintro rfl
      exact Operation.ofOrdinal?_ordinal .invoke
    · intro hop
      rw [← Operation.ordinal_ofOrdinal? htag, hop]
      rfl
  have hfit : ∀ items : Option (List ValueRecord ⊕ List InvokeRecord),
      (∀ found, items = some found →
        (found.isRight = true ↔ Operation.ofOrdinal? tag = some .invoke)) →
      ((assembleRows tag { inbound := keys.inbound }
        { inboundValues := items.bind Sum.getLeft?
          inboundInvocations := items.bind Sum.getRight? }).1 = .ok () ↔
        rowsAllowed (Operation.ofOrdinal? tag) (keys.inbound.map List.length)
          (items.map (Sum.elim List.length List.length)) = true) :=
    fun items hkind => (assembleRows_isOk_iff tag _ items).trans (rowsFit_iff_rowsAllowed hkind)
  rw [hkeys.2]
  simp only [Field.Spells] at hvalues
  split at hvalues
  · next hinvoke =>
    rw [hvalues.2]
    cases values.inboundInvocations with
    | none => exact hfit none (by nofun)
    | some items =>
      refine hfit (some (.inr items)) fun found hfound => ?_
      rw [← Option.some.inj hfound, ← hop]
      exact ⟨fun _ => hinvoke, fun _ => rfl⟩
  · next hplain =>
    rw [hvalues.2]
    cases values.inboundValues with
    | none => exact hfit none (by nofun)
    | some items =>
      refine hfit (some (.inl items)) fun found hfound => ?_
      rw [← Option.some.inj hfound, ← hop]
      exact ⟨fun hright => (nomatch hright), fun hinvoke => absurd hinvoke hplain⟩

/-- A request whose fields are there is settled exactly if its rows are allowed. -/
theorem requestLayout_settle_isOk_iff {limit : Nat} {arrived : RequestRecord} {bs : Bytes}
    (h : requestLayout.Formed limit arrived bs) :
    (requestLayout.settle arrived).1 = .ok () ↔ arrivedRowsAllowed arrived = true := by
  obtain ⟨flags, deployment, affinity, messageId, cacheId, clientFirst, filter, future, keepBinary,
    keys, lock, mini, snapshot, needResult, op, taskHash, threadId, timeout, topology, txTimeout,
    values, ⟨⟩⟩ := arrived
  obtain ⟨body, -, hbody⟩ := h
  obtain ⟨-, -, -, -, -, -, -, -, ⟨_, hkeys⟩, -, -, -, -, ⟨_, -, hop⟩, -, -, -, -, -,
    ⟨_, hvalues⟩, -⟩ := Fields.each_of_spells _ ⟨body, hbody⟩
  exact assembleRows_isOk_of_spells hop hkeys hvalues

/-- A request whose fields are there and that cannot be settled is malformed. -/
theorem requestLayout_settle_error {arrived : RequestRecord} {e : CodecError}
    (h : (requestLayout.settle arrived).1 = .error e) : ∃ fault, e = .invalidPayload fault := by
  obtain ⟨flags, deployment, affinity, messageId, cacheId, clientFirst, filter, future, keepBinary,
    keys, lock, mini, snapshot, needResult, op, taskHash, threadId, timeout, topology, txTimeout,
    values, ⟨⟩⟩ := arrived
  exact assembleRows_error h

/-! ## Receiving -/

namespace Decoder

variable {accepted : List MessageType} {maxLength : Nat} {t : MessageType}
  {record : t.Rec} {pieces : List Bytes}

/-- Octets that are the fields of a message are received as this message if it can be settled. -/
theorem receive_formed (htype : t ∈ accepted)
    (h : t.layout.Formed (min maxLength maxWireLength) record pieces.flatten)
    (hsettle : (t.layout.settle record).1 = .ok ()) :
    receive { accepted, maxLength } pieces =
      ⟨[⟨t, (t.layout.settle record).2⟩], .ok (), { accepted, maxLength }⟩ := by
  obtain ⟨s, hnext⟩ := next_formed htype h []
  rw [List.append_nil, hsettle] at hnext
  exact receive_of_drains (.message hnext (.dry rfl))

/-- Octets that are the fields of a message are refused if it cannot be settled, for the reason
why it cannot. -/
theorem receive_formed_error (htype : t ∈ accepted)
    (h : t.layout.Formed (min maxLength maxWireLength) record pieces.flatten) {e : CodecError}
    (hsettle : (t.layout.settle record).1 = .error e) :
    ∃ last, receive { accepted, maxLength } pieces = ⟨[], .error e, last⟩ := by
  obtain ⟨s, hnext⟩ := next_formed htype h []
  rw [List.append_nil, hsettle] at hnext
  exact receive_of_drains_error (.failure hnext)

/-- Octets that are the fields of a request, cut in any way, are received as this request if its
rows are allowed, and as malformed otherwise. -/
theorem receive_request (htype : .request ∈ accepted) {arrived : RequestRecord}
    (h : requestLayout.Formed (min maxLength maxWireLength) arrived pieces.flatten) :
    (arrivedRowsAllowed arrived = true →
      receive { accepted, maxLength } pieces =
        ⟨[⟨.request, (requestLayout.settle arrived).2⟩], .ok (), { accepted, maxLength }⟩) ∧
    (arrivedRowsAllowed arrived = false → ∃ fault last,
      receive { accepted, maxLength } pieces = ⟨[], .error (.invalidPayload fault), last⟩) := by
  have hsettled := requestLayout_settle_isOk_iff h
  constructor
  · intro hallowed
    exact receive_formed (t := .request) htype h (hsettled.mpr hallowed)
  · intro hrefused
    cases hcheck : (requestLayout.settle arrived).1 with
    | ok =>
      rw [hsettled.mp hcheck] at hrefused
      cases hrefused
    | error e =>
      obtain ⟨fault, rfl⟩ := requestLayout_settle_error hcheck
      exact ⟨fault, receive_formed_error (t := .request) htype h hcheck⟩

end Decoder

end Enlistment
