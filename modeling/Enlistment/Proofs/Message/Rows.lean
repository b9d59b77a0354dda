import Enlistment.Message.Request

/-!
# Rows that fit their operation

Keys go alone, with values or with invocations, as the operation has it. Rows that come in
are put together exactly if they fit in this way.
-/

namespace Enlistment

open Wire

/-- The ordinal of an operation stands for it. -/
@[simp] theorem Operation.ofOrdinal?_ordinal (op : Operation) :
    ofOrdinal? op.ordinal = some op := by
  cases op <;> rfl

/-- The ordinal of an operation, if there is one, stands for it. -/
theorem Operation.ofOrdinal?_getD (op : Option Operation) :
    ofOrdinal? ((op.map ordinal).getD (-1)) = op := by
  cases op with
  | none => rfl
  | some op => exact ofOrdinal?_ordinal op

/-- An operation that takes invocations does not take keys alone. -/
theorem Operation.isDeleteOrLock_of_isInvoke {op : Operation} (h : op.isInvoke = true) :
    op.isDeleteOrLock = false := by
  cases op <;> first | rfl | cases h

/-- Whether what goes with `count` keys fits an operation: nothing unless the operation takes
values, values unless it takes none, and invocations if it takes them. Without an operation
there may be nothing or values. -/
def ValuesFit {V I : Type} (op : Option Operation) (count : Nat) : Option (List V ⊕ List I) → Prop
  | none => ∀ o, op = some o → o.isDeleteOrLock = true
  | some (.inl values) =>
    values.length = count ∧ ∀ o, op = some o → o.isDeleteOrLock = false ∧ o.isInvoke = false
  | some (.inr items) => items.length = count ∧ ∃ o, op = some o ∧ o.isInvoke = true

/-- Whether rows fit an operation. Without keys there is nothing to go with them. -/
def RowsFit {K V I : Type} (op : Option Operation) (keys : Option (List K))
    (items : Option (List V ⊕ List I)) : Prop :=
  match keys with
  | none => items = none
  | some ks => ValuesFit op ks.length items

/-- Values that are put together with keys fit the operation. -/
theorem assembleValues_fit {op : Option Operation} {keys : List KeyRecord}
    {values : Option (List ValueRecord)} {invocations : Option (List InvokeRecord)}
    {items : Option (List ValueRecord ⊕ List InvokeRecord)}
    (h : assembleValues op keys values invocations = .ok items) :
    ValuesFit op keys.length items := by
  have hcounted : ∀ (count : Nat) (found : List ValueRecord ⊕ List InvokeRecord) (e : CodecError),
      (if count = keys.length then Except.ok (some found) else .error e) = .ok items →
      count = keys.length ∧ items = some found := by
    intro count found e hfound
    split at hfound
    · next hcount => exact ⟨hcount, (Except.ok.inj hfound).symm⟩
    · cases hfound
  unfold assembleValues at h
  cases op with
  | none =>
    rcases values with _ | values <;> rcases invocations with _ | invocations
    · obtain rfl := Except.ok.inj h
      intro o ho
      cases ho
    · cases h
    · obtain ⟨hcount, rfl⟩ := hcounted _ _ _ h
      exact ⟨hcount, fun o ho => by cases ho⟩
    · cases h
  | some op =>
    by_cases hkeys : op.isDeleteOrLock = true
    · rcases values with _ | values <;> rcases invocations with _ | invocations <;>
        simp only [hkeys, if_true] at h
      · obtain rfl := Except.ok.inj h
        intro o ho
        rwa [← Option.some.inj ho]
      all_goals cases h
    · by_cases hinvoke : op.isInvoke = true
      · rcases values with _ | values <;> rcases invocations with _ | invocations <;>
          simp only [hkeys, hinvoke, Bool.false_eq_true, if_false, if_true] at h
        · cases h
        · obtain ⟨hcount, rfl⟩ := hcounted _ _ _ h
          exact ⟨hcount, op, rfl, hinvoke⟩
        all_goals cases h
      · rcases values with _ | values <;> rcases invocations with _ | invocations <;>
          simp only [hkeys, hinvoke, Bool.false_eq_true, if_false] at h
        · cases h
        · cases h
        · obtain ⟨hcount, rfl⟩ := hcounted _ _ _ h
          refine ⟨hcount, fun o ho => ?_⟩
          rw [← Option.some.inj ho]
          exact ⟨eq_false_of_ne_true hkeys, eq_false_of_ne_true hinvoke⟩
        · cases h

/-- What fits the operation is put together with the keys. -/
theorem assembleValues_of_fit {op : Option Operation} {keys : List KeyRecord}
    {items : Option (List ValueRecord ⊕ List InvokeRecord)} (h : ValuesFit op keys.length items) :
    assembleValues op keys (items.bind Sum.getLeft?) (items.bind Sum.getRight?) = .ok items := by
  unfold assembleValues
  rcases items with _ | values | invocations
  · cases op with
    | none => rfl
    | some op =>
      have hkeys : op.isDeleteOrLock = true := h op rfl
      simp [hkeys]
  · obtain ⟨hcount, hop⟩ := h
    cases op with
    | none => simp [hcount]
    | some op =>
      obtain ⟨hkeys, hinvoke⟩ := hop op rfl
      simp [hkeys, hinvoke, hcount]
  · obtain ⟨hcount, op, rfl, hinvoke⟩ := h
    have hkeys : op.isDeleteOrLock = false := Operation.isDeleteOrLock_of_isInvoke hinvoke
    simp [hkeys, hinvoke, hcount]

/-- Rows that are put together fit their operation. -/
theorem assembleRows_fit {tag : Int8} {keys keys' : RequestKeys} {values values' : RequestValues}
    (h : assembleRows tag keys values = (.ok (), keys', values')) :
    RowsFit (Operation.ofOrdinal? tag) keys'.settled values'.settled := by
  unfold assembleRows at h
  cases hkeys : keys.inbound with
  | none =>
    simp only [hkeys] at h
    split at h
    · next e herror => cases h
    · next ks items hok =>
      split at hok
      · cases hok
      · obtain ⟨rfl, rfl⟩ : _ ∧ _ := by simpa using hok
        obtain ⟨rfl, rfl⟩ : _ ∧ _ := by simpa using h
        rfl
  | some ks =>
    simp only [hkeys] at h
    cases hitems : assembleValues (Operation.ofOrdinal? tag) ks values.inboundValues
        values.inboundInvocations with
    | error e => simp [hitems, Except.map] at h
    | ok items =>
      simp only [hitems, Except.map] at h
      obtain ⟨rfl, rfl⟩ : _ ∧ _ := by simpa using h
      exact assembleValues_fit hitems

/-- Rows that fit their operation are put together as they came in. -/
theorem assembleRows_of_fit {tag : Int8} {keys : Option (List KeyRecord)}
    {items : Option (List ValueRecord ⊕ List InvokeRecord)}
    (h : RowsFit (Operation.ofOrdinal? tag) keys items) :
    assembleRows tag { inbound := keys }
        { inboundValues := items.bind Sum.getLeft?
          inboundInvocations := items.bind Sum.getRight? } =
      (.ok (), { settled := keys }, { settled := items }) := by
  cases keys with
  | none =>
    obtain rfl : items = none := h
    rfl
  | some ks =>
    have hitems := assembleValues_of_fit h
    simp only [assembleRows, hitems, Except.map]

/-- The rows of a request that has been settled fit its operation. -/
theorem settleRequest_fit {slots : BaseSlots RequestSlots} {deployment : Option DeploymentRecord}
    {affinity : TopologyRecord} {messageId : Int64} {cacheId : Int32} {clientFirst : Bool}
    {filter : Option FilterRecord} {future : BitVec 128} {keepBinary : Bool} {keys : RequestKeys}
    {lock : LockRecord} {mini : Int32} {snapshot : Option SnapshotRecord} {needResult : Bool}
    {op : Int8} {taskHash : Int32} {threadId timeout : Int64} {topology : TopologyRecord}
    {txTimeout : Int64} {values : RequestValues}
    (h : settleRequest slots = (.ok (), deployment, affinity, messageId, cacheId, clientFirst,
      filter, future, keepBinary, keys, lock, mini, snapshot, needResult, op, taskHash, threadId,
      timeout, topology, txTimeout, values, ())) :
    RowsFit (Operation.ofOrdinal? op) keys.settled values.settled := by
  obtain ⟨deployment', affinity', messageId', cacheId', clientFirst', filter', future',
    keepBinary', keys', lock', mini', snapshot', needResult', op', taskHash', threadId', timeout',
    topology', txTimeout', values', ⟨⟩⟩ := slots
  rcases hassemble : assembleRows op' keys' values' with ⟨check, keys'', values''⟩
  simp only [settleRequest, hassemble, Prod.mk.injEq] at h
  obtain ⟨rfl, -, -, -, -, -, -, -, -, rfl, -, -, -, -, rfl, -, -, -, -, -, rfl, -⟩ := h
  exact assembleRows_fit hassemble

end Enlistment
