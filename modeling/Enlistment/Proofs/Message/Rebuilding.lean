import Enlistment.Proofs.Message.Marshalling
import Enlistment.Proofs.Message.Views
import Enlistment.Proofs.Value.RoundTrip

/-!
# Rebuilding what was sent

The receiver of an object in its canonical form rebuilds the value of its sender, and so it
rebuilds rows and filters, provided that it knows the classes and the code that they name and
that no form is too long for the numbers in it.
-/

namespace Enlistment

variable {σ : Type}

/-! ## Objects -/

/-- Whether all classes in a value are known. -/
def Value.Known (hasClass : String → Bool) (v : Value) : Prop :=
  ∀ name ∈ v.classes, hasClass name = true

/-- Whether a receiver can look into a value: it stays in binary form or its classes are known. -/
def Value.Readable (keepBinary : Bool) (hasClass : String → Bool) (v : Value) : Prop :=
  keepBinary = true ∨ v.Known hasClass

/-- Known classes pass the check. -/
theorem Value.checkClasses_of_known {hasClass : String → Bool} {v : Value} (h : v.Known hasClass) :
    v.checkClasses hasClass = .ok () := by
  have hnone : v.classes.find? (fun name => !hasClass name) = none := by
    rw [List.find?_eq_none]
    intro name hname
    rw [h name hname]
    decide
  rw [checkClasses, hnone]

/-- What a receiver finds of the classes in a value, which do not matter in binary form. -/
def Value.admitted (keepBinary : Bool) (hasClass : String → Bool) (v : Value) :
    Except UnmarshalError Unit :=
  if keepBinary then .ok () else v.checkClasses hasClass

/-- A readable value is admitted. -/
theorem Value.Readable.admitted {keepBinary : Bool} {hasClass : String → Bool} {v : Value}
    (h : v.Readable keepBinary hasClass) : v.admitted keepBinary hasClass = .ok () := by
  obtain rfl | hknown := h
  · rfl
  · rw [Value.admitted, Value.checkClasses_of_known hknown, ite_self]

/-- A value is rebuilt from octets that stand for it, and its classes are checked. -/
theorem rebuildValue_of_decode (keepBinary : Bool) (hasClass : String → Bool) {v : Value}
    {bs : Bytes} (h : Value.decode bs = .ok v) :
    rebuildValue keepBinary hasClass (some bs) none = (v.admitted keepBinary hasClass, some v) := by
  rw [rebuildValue, h]
  rfl

/-- The form of a value, not longer than the numbers in it can tell. -/
def Value.Short (v : Value) : Prop := v.encode.length < 0x10000000000000000

/-- Why an object stands for no value. -/
inductive ContentFault where
  /-- Its octets cannot be decoded. -/
  | decode (e : DecodeError)
  /-- It has neither octets nor a value. -/
  | missing

/-- What a receiver reports of an object that stands for no value. -/
def ContentFault.report : ContentFault → UnmarshalError
  | decode e => .decode e
  | missing => .typeMismatch "cache object has neither bytes nor value"

/-- What an object stands for: the value that its octets decode to, or its own value if it has no
octets. -/
def contentOf (bytes : Option Bytes) (value : Option Value) : Except ContentFault Value :=
  match bytes, value with
  | some bs, _ => (Value.decode bs).mapError .decode
  | none, some v => .ok v
  | none, none => .error .missing

/-- What a key stands for. -/
def KeyObject.content (k : KeyObject) : Except ContentFault Value := contentOf k.bytes k.value

/-- What a value object stands for. -/
def ValueObject.content (o : ValueObject) : Except ContentFault Value := contentOf o.bytes o.value

/-- A receiver rebuilds what octets stand for. -/
theorem rebuildValue_received (keepBinary : Bool) (hasClass : String → Bool)
    (bytes : Option Bytes) :
    rebuildValue keepBinary hasClass bytes none =
      match contentOf bytes none with
      | .error fault => (.error fault.report, none)
      | .ok v => (v.admitted keepBinary hasClass, some v) := by
  cases bytes with
  | none => rfl
  | some bs =>
    rw [rebuildValue, contentOf]
    cases Value.decode bs <;> rfl

/-- An object in wire form stands on the wire for what it stood for before, unless its form is too
long. -/
theorem ValueObject.content_onWire_marshal {o : ValueObject}
    (hshort : ∀ v, o.bytes = none → o.value = some v → v.Short) :
    o.marshal.onWire.content = o.content := by
  obtain ⟨_ | bs, _ | v⟩ := o
  · rfl
  · show (Value.decode v.encode).mapError _ = .ok v
    rw [Value.decode_encode (hshort v rfl rfl)]
    rfl
  · rfl
  · rfl

/-- A key that was sent is rebuilt, and its classes are checked. -/
theorem KeyObject.unmarshal_sent (ctx : MarshalContext) (keepBinary : Bool)
    (hasClass : String → Bool) {key : Value} (h : key.Short) :
    (ofKey ctx key).onWire.unmarshal keepBinary hasClass =
      (key.admitted keepBinary hasClass, ofKey ctx key) := by
  have hrebuild := rebuildValue_of_decode keepBinary hasClass (Value.decode_encode h)
  simp only [unmarshal, onWire, ofKey, hrebuild]

/-- A value that was sent is rebuilt, and its classes are checked. -/
theorem ValueObject.unmarshal_sent (keepBinary : Bool) (hasClass : String → Bool) {v : Value}
    (h : v.Short) :
    (complete v).onWire.unmarshal keepBinary hasClass =
      (v.admitted keepBinary hasClass, complete v) := by
  have hrebuild := rebuildValue_of_decode keepBinary hasClass (Value.decode_encode h)
  simp only [unmarshal, onWire, complete, hrebuild]

/-- A key is rebuilt as its sender made it. -/
theorem KeyObject.unmarshal_ofKey {keepBinary : Bool} {hasClass : String → Bool} {key : Value}
    (ctx : MarshalContext) (hshort : key.Short) (hread : key.Readable keepBinary hasClass) :
    (ofKey ctx key).onWire.unmarshal keepBinary hasClass = (.ok (), ofKey ctx key) := by
  rw [unmarshal_sent ctx keepBinary hasClass hshort, hread.admitted]

/-- A value is rebuilt as its sender made it. -/
theorem ValueObject.unmarshal_complete {keepBinary : Bool} {hasClass : String → Bool} {v : Value}
    (hshort : v.Short) (hread : v.Readable keepBinary hasClass) :
    (complete v).onWire.unmarshal keepBinary hasClass = (.ok (), complete v) := by
  rw [unmarshal_sent keepBinary hasClass hshort, hread.admitted]

/-- Arguments are rebuilt as their sender made them. -/
theorem unmarshalEach_complete {keepBinary : Bool} {hasClass : String → Bool} {args : List Value}
    (h : ∀ v ∈ args, v.Short ∧ v.Readable keepBinary hasClass) :
    unmarshalEach (ValueObject.unmarshal keepBinary hasClass)
      (args.map fun v => (ValueObject.complete v).onWire) =
        (.ok (), args.map ValueObject.complete) := by
  induction args with
  | nil => rfl
  | cons v args ih =>
    obtain ⟨⟨hshort, hread⟩, hargs⟩ := List.forall_mem_cons.mp h
    simp only [List.map_cons, unmarshalEach, ValueObject.unmarshal_complete hshort hread, ih hargs]

/-- What a value is rebuilt to does not depend on the classes that are known. -/
theorem rebuildValue_unchecked {keepBinary : Bool} {hasClass : String → Bool} {bytes : Option Bytes}
    {cached value : Option Value}
    (h : rebuildValue keepBinary hasClass bytes cached = (.ok (), value))
    (hasClass' : String → Bool) : rebuildValue true hasClass' bytes cached = (.ok (), value) := by
  unfold rebuildValue at h ⊢
  dsimp only at h ⊢
  split at h
  · cases h
  · obtain ⟨-, rfl⟩ := Prod.mk.inj h
    rfl

/-- What is unmarshalled with classes checked is so in binary form as well. -/
theorem KeyObject.unmarshal_unchecked {keepBinary : Bool} {k k' : KeyObject}
    {hasClass : String → Bool} (h : k.unmarshal keepBinary hasClass = (.ok (), k')) (hasClass' : String → Bool) :
    k.unmarshal true hasClass' = (.ok (), k') := by
  obtain ⟨hresult, rfl⟩ := Prod.mk.inj h
  have hrebuilt := rebuildValue_unchecked (Prod.ext hresult rfl) hasClass'
  simp only [unmarshal, hrebuilt]

/-- What is unmarshalled with classes checked is so in binary form as well. -/
theorem ValueObject.unmarshal_unchecked {keepBinary : Bool} {o o' : ValueObject}
    {hasClass : String → Bool} (h : o.unmarshal keepBinary hasClass = (.ok (), o')) (hasClass' : String → Bool) :
    o.unmarshal true hasClass' = (.ok (), o') := by
  obtain ⟨hresult, rfl⟩ := Prod.mk.inj h
  have hrebuilt := rebuildValue_unchecked (Prod.ext hresult rfl) hasClass'
  simp only [unmarshal, hrebuilt]

/-- Lists are rebuilt in one way if their elements are. -/
theorem unmarshalEach_unchecked {A : Type} {f g : A → Except UnmarshalError Unit × A}
    (hfg : ∀ a a', f a = (.ok (), a') → g a = (.ok (), a')) {xs xs' : List A}
    (h : unmarshalEach f xs = (.ok (), xs')) : unmarshalEach g xs = (.ok (), xs') := by
  induction xs generalizing xs' with
  | nil => exact h
  | cons x rest ih =>
    unfold unmarshalEach at h ⊢
    rcases hx : f x with ⟨_ | _, x'⟩ <;> rw [hx] at h
    · cases h
    · obtain ⟨hresult, rfl⟩ := Prod.mk.inj h
      have hrest := ih (Prod.ext hresult rfl)
      simp only [hfg x x' hx, hrest]

/-! ## Rows -/

/-- The values of a row that travel as objects. -/
def Row.values : Row → List Value
  | key k => [k]
  | entry k v => [k, v]
  | invoke k i => k :: i.args

/-- The processor that a row names. -/
def Row.processor? : Row → Option String
  | invoke _ i => some i.processor
  | _ => none

/-- The row that its receiver gets: the same key in the partition of its form, the same value
or all arguments in order, and the processor of that name. -/
def Row.enlisted (ctx : MarshalContext) (loader : ClassLoader σ) : Row → EnlistedRow σ
  | key k => .key ⟨ctx.partitionOf k.encode, some k.encode, some k⟩
  | entry k v => .entry ⟨ctx.partitionOf k.encode, some k.encode, some k⟩ ⟨some v.encode, some v⟩
  | invoke k i => .invoke ⟨ctx.partitionOf k.encode, some k.encode, some k⟩
    { processor := i.processor
      args := i.args.map fun v => ⟨some v.encode, some v⟩
      resolved := loader.processor i.processor }

/-- A row as it goes on the wire. -/
def EnlistedRow.onWire : EnlistedRow σ → EnlistedRow σ
  | key k => .key k.onWire
  | entry k v => .entry k.onWire v.onWire
  | invoke k i => .invoke k.onWire i.onWire

/-- Whether a receiver can rebuild a row: it can look into the values, and it knows the
processor. -/
structure Row.Rebuildable (keepBinary : Bool) (loader : ClassLoader σ) (row : Row) : Prop where
  short : ∀ v ∈ row.values, v.Short
  readable : ∀ v ∈ row.values, v.Readable keepBinary loader.hasClass
  processor : ∀ name, row.processor? = some name → (loader.processor name).isSome = true

namespace EnlistRequest

/-- Rows go on the wire one by one. -/
theorem splitRows_onWire (rows : WireRows σ) :
    splitRows rows.onWire = (splitRows rows).map EnlistedRow.onWire := by
  cases rows with
  | keysOnly keys => simp only [WireRows.onWire, splitRows, List.map_map]; rfl
  | entries keys values =>
    simp only [WireRows.onWire, splitRows, List.zipWith_map, List.map_zipWith]; rfl
  | invokes keys items =>
    simp only [WireRows.onWire, splitRows, List.zipWith_map, List.map_zipWith]; rfl

/-- Rows of one shape that are put together come apart again. -/
theorem splitRows_wireRowsOf {op : Operation} {rows : List Row} (ctx : MarshalContext)
    (h : ∀ row ∈ rows, row.Fits op) :
    splitRows (wireRowsOf op (rows.map (Row.form (σ := σ) ctx))) = rows.map (Row.form ctx) := by
  unfold wireRowsOf
  by_cases hkeys : op.isDeleteOrLock = true
  · rw [if_pos hkeys, splitRows, List.map_map, List.map_map]
    refine List.map_congr_left fun row hrow => ?_
    cases row with
    | key k => rfl
    | entry k v => cases hkeys.symm.trans (h _ hrow).1
    | invoke k i => cases hkeys.symm.trans (Operation.isDeleteOrLock_of_isInvoke (h _ hrow))
  · rw [if_neg hkeys]
    by_cases hinvoke : op.isInvoke = true
    · rw [if_pos hinvoke, splitRows]
      induction rows with
      | nil => rfl
      | cons row rest ih =>
        obtain ⟨hrow, hrest⟩ := List.forall_mem_cons.mp h
        cases row with
        | key k => exact absurd hrow hkeys
        | entry k v => cases hinvoke.symm.trans hrow.2
        | invoke k i => exact congrArg (List.cons _) (ih hrest)
    · rw [if_neg hinvoke, splitRows]
      induction rows with
      | nil => rfl
      | cons row rest ih =>
        obtain ⟨hrow, hrest⟩ := List.forall_mem_cons.mp h
        cases row with
        | key k => exact absurd hrow hkeys
        | entry k v => exact congrArg (List.cons _) (ih hrest)
        | invoke k i => exact absurd hrow hinvoke

/-- The wire form of the caller's rows holds them one by one. -/
theorem splitRows_convertRows {ctx : MarshalContext} {op : Option Operation} {rows : List Row}
    {wire : WireRows σ} (h : convertRows ctx op rows = .ok wire) :
    splitRows wire = rows.map (Row.form ctx) := by
  obtain ⟨-, rfl, rfl⟩ | ⟨o, -, hfits, rfl⟩ := convertRows_eq h
  · rfl
  · exact splitRows_wireRowsOf ctx hfits

/-- A row is rebuilt with its key, its value or arguments, and its processor. -/
theorem unmarshalRow_form {keepBinary : Bool} {loader : ClassLoader σ} {row : Row}
    (ctx : MarshalContext) (h : row.Rebuildable keepBinary loader) :
    unmarshalRow keepBinary loader (row.form ctx).onWire = .ok (row.enlisted ctx loader) := by
  obtain ⟨hshort, hread, hprocessor⟩ := h
  cases row with
  | key k =>
    have hk := KeyObject.unmarshal_ofKey ctx (hshort k (List.mem_singleton_self k))
      (hread k (List.mem_singleton_self k))
    simp only [Row.form, EnlistedRow.onWire, unmarshalRow, hk]
    rfl
  | entry k v =>
    obtain ⟨hkShort, hvShort⟩ := List.forall_mem_cons.mp hshort
    obtain ⟨hkRead, hvRead⟩ := List.forall_mem_cons.mp hread
    have hv := ValueObject.unmarshal_complete (List.forall_mem_singleton.mp hvShort)
      (List.forall_mem_singleton.mp hvRead)
    simp only [Row.form, EnlistedRow.onWire, unmarshalRow,
      KeyObject.unmarshal_ofKey ctx hkShort hkRead, hv]
    rfl
  | invoke k i =>
    obtain ⟨hkShort, hargsShort⟩ := List.forall_mem_cons.mp hshort
    obtain ⟨hkRead, hargsRead⟩ := List.forall_mem_cons.mp hread
    obtain ⟨p, hp⟩ := Option.isSome_iff_exists.mp (hprocessor i.processor rfl)
    have hargs := unmarshalEach_complete fun v hv => ⟨hargsShort v hv, hargsRead v hv⟩
    have hi : (InvokeValue.mk (σ := σ) i.processor (i.args.map ValueObject.complete) none).onWire =
        ⟨i.processor, i.args.map fun v => (ValueObject.complete v).onWire, none⟩ := by
      simp only [InvokeValue.onWire, List.map_map]
      rfl
    simp only [Row.form, EnlistedRow.onWire, unmarshalRow,
      KeyObject.unmarshal_ofKey ctx hkShort hkRead, hi, InvokeValue.unmarshal, hargs, hp,
      Row.enlisted]
    rfl

/-- Rows are rebuilt in order. -/
theorem mapM_unmarshalRow_form {keepBinary : Bool} {loader : ClassLoader σ} {rows : List Row}
    (ctx : MarshalContext) (h : ∀ row ∈ rows, row.Rebuildable keepBinary loader) :
    ((rows.map (Row.form ctx)).map EnlistedRow.onWire).mapM (unmarshalRow keepBinary loader) =
      .ok (rows.map (Row.enlisted ctx loader)) := by
  induction rows with
  | nil => rfl
  | cons row rest ih =>
    obtain ⟨hrow, hrest⟩ := List.forall_mem_cons.mp h
    rw [List.map_cons, List.map_cons, List.mapM_cons, unmarshalRow_form ctx hrow, ih hrest]
    rfl

end EnlistRequest

/-! ## Filters -/

/-- An object that stands for a value is rebuilt with it, and its classes are checked. -/
theorem ValueObject.unmarshal_onWire_marshal {o : ValueObject} {v : Value} (keepBinary : Bool)
    (hasClass : String → Bool) (h : o.content = .ok v) (hshort : o.bytes = none → v.Short) :
    ∃ rebuilt : ValueObject, o.marshal.onWire.unmarshal keepBinary hasClass =
      (v.admitted keepBinary hasClass, rebuilt) ∧ rebuilt.value = some v := by
  have hcontent : contentOf o.marshal.bytes none = .ok v := by
    refine Eq.trans (content_onWire_marshal fun v' hnone hvalue => ?_) h
    rw [content, hnone, hvalue] at h
    rw [Except.ok.inj h]
    exact hshort hnone
  have hrebuild := rebuildValue_received keepBinary hasClass o.marshal.bytes
  rw [hcontent] at hrebuild
  exact ⟨⟨o.marshal.bytes, some v⟩, by simp only [onWire, unmarshal, hrebuild], rfl⟩

/-- A filter whose operand stands for a value: its octets can be decoded, or its value is known and
it has none. -/
def Filter.Whole (f : Filter σ) : Prop := ∀ o, f.operand = some o → ∃ v, o.content = .ok v

/-- A filter that is made in one of the four ways is whole. -/
theorem Filter.whole_of_made {f : Filter σ}
    (h : f = .hasValue ∨ f = .noValue ∨ (∃ v, f = .containsValue v) ∨
      ∃ className, f = .custom className) : f.Whole := by
  intro o ho
  obtain rfl | rfl | ⟨v, rfl⟩ | ⟨className, rfl⟩ := h
  · cases ho
  · cases ho
  · obtain rfl := Option.some.inj ho
    exact ⟨v, rfl⟩
  · cases ho

/-- The value that the operand of a filter stands for, if there is one. -/
def Filter.operandContent (f : Filter σ) : Option Value :=
  f.operand.bind fun o => o.content.toOption

/-- What a filter accepts, by its kind: entries, missing entries, entries with the value of the
operand, or what the predicate of its class accepts. -/
def Filter.decides (loader : ClassLoader σ) (f : Filter σ) (state : σ) (key : Value)
    (current : Option Value) : Bool × σ :=
  match f.kind, f.className.bind loader.predicate with
  | .hasValue, _ => (current.isSome, state)
  | .noValue, _ => (current.isNone, state)
  | .containsValue, _ => (decide (∃ v, current = some v ∧ f.operandContent = some v), state)
  | .custom, some predicate => predicate.apply state key current
  | .custom, none => (false, state)

/-- Whether a receiver can rebuild a filter: its operand stands for a value that the receiver can
look into, and the receiver knows its class. -/
structure Filter.Rebuildable (keepBinary : Bool) (loader : ClassLoader σ) (f : Filter σ) :
    Prop where
  operand : ∀ o, f.operand = some o → ∃ v, o.content = .ok v ∧ (o.bytes = none → v.Short) ∧
    v.Readable keepBinary loader.hasClass
  predicate : ∀ name, f.className = some name → (loader.predicate name).isSome = true

/-- A filter whose operand and class can be rebuilt. -/
theorem Filter.unmarshal_of_parts {keepBinary : Bool} {loader : ClassLoader σ} {f : Filter σ}
    {operand : Option ValueObject} (hnone : f.operand = none → operand = none)
    (hsome : ∀ o, f.operand = some o →
      ∃ o', o.unmarshal keepBinary loader.hasClass = (.ok (), o') ∧ operand = some o')
    (hclass : ∀ name, f.className = some name → (loader.predicate name).isSome = true) :
    f.unmarshal keepBinary loader =
      (.ok (),
        { f with operand, resolved := (f.className.map loader.predicate).getD f.resolved }) := by
  obtain ⟨kind, operand₀, className, resolved⟩ := f
  have hresolve : ∀ name, className = some name → ∃ p, loader.predicate name = some p :=
    fun name hname => Option.isSome_iff_exists.mp (hclass name hname)
  cases operand₀ with
  | none =>
    obtain rfl := hnone rfl
    cases className with
    | none => rfl
    | some name =>
      obtain ⟨p, hp⟩ := hresolve name rfl
      simp only [Filter.unmarshal, hp, Option.map_some, Option.getD_some]
  | some o =>
    obtain ⟨o', ho', rfl⟩ := hsome o rfl
    cases className with
    | none => simp only [Filter.unmarshal, ho', Option.map_none, Option.getD_none]
    | some name =>
      obtain ⟨p, hp⟩ := hresolve name rfl
      simp only [Filter.unmarshal, ho', hp, Option.map_some, Option.getD_some]

/-- A filter that has its operand and its predicate accepts what it should. -/
theorem Filter.evaluate_eq_decides {loader : ClassLoader σ} {f g : Filter σ}
    (hkind : g.kind = f.kind) (hvalue : g.operandValue = f.operandContent)
    (hresolved : g.resolved = f.className.bind loader.predicate) :
    g.evaluate = f.decides loader := by
  funext state key current
  rw [evaluate, decides, hkind, hresolved, hvalue]
  cases f.kind with
  | hasValue => rfl
  | noValue => rfl
  | containsValue =>
    have hsame : (current.isSome && current == f.operandContent) =
        decide (∃ v, current = some v ∧ f.operandContent = some v) := by
      rw [Bool.eq_iff_iff, Bool.and_eq_true, beq_iff_eq, decide_eq_true_iff]
      constructor
      · rintro ⟨hsome, heq⟩
        obtain ⟨v, rfl⟩ := Option.isSome_iff_exists.mp hsome
        exact ⟨v, rfl, heq.symm⟩
      · rintro ⟨v, rfl, hv⟩
        exact ⟨rfl, hv.symm⟩
    exact congrArg (·, state) hsame
  | custom =>
    cases f.className.bind loader.predicate with
    | none => rfl
    | some p => rfl

/-- A filter is rebuilt and accepts what it should. -/
theorem Filter.Rebuildable.unmarshal {keepBinary : Bool} {loader : ClassLoader σ} {f : Filter σ}
    (h : f.Rebuildable keepBinary loader) :
    ∃ rebuilt : Filter σ, f.marshal.onWire.unmarshal keepBinary loader = (.ok (), rebuilt) ∧
      rebuilt.evaluate = f.decides loader := by
  -- the operand comes back with its value
  obtain ⟨operand, hnone, hsome, hvalue⟩ : ∃ operand : Option ValueObject,
      (f.marshal.onWire.operand = none → operand = none) ∧
      (∀ o, f.marshal.onWire.operand = some o →
        ∃ o', o.unmarshal keepBinary loader.hasClass = (.ok (), o') ∧ operand = some o') ∧
      operand.bind ValueObject.value = f.operandContent := by
    cases hoperand : f.operand with
    | none =>
      refine ⟨none, fun _ => rfl, fun o ho => ?_, ?_⟩
      · simp [Filter.marshal, Filter.onWire, hoperand] at ho
      · rw [operandContent, hoperand]
        rfl
    | some o =>
      obtain ⟨v, hcontent, hshort, hread⟩ := h.operand o hoperand
      obtain ⟨rebuilt, hrebuilt, hv⟩ :=
        ValueObject.unmarshal_onWire_marshal keepBinary loader.hasClass hcontent hshort
      rw [hread.admitted] at hrebuilt
      refine ⟨some rebuilt, fun ho => ?_, fun o' ho' => ⟨rebuilt, ?_, rfl⟩, ?_⟩
      · simp [Filter.marshal, Filter.onWire, hoperand] at ho
      · simp only [Filter.marshal, Filter.onWire, hoperand, Option.map_some,
          Option.some.injEq] at ho'
        rw [← ho', hrebuilt]
      · rw [operandContent, hoperand]
        show rebuilt.value = o.content.toOption
        rw [hcontent, hv]
        rfl
  refine ⟨_, Filter.unmarshal_of_parts hnone hsome h.predicate,
    Filter.evaluate_eq_decides rfl hvalue ?_⟩
  show (f.className.map loader.predicate).getD none = f.className.bind loader.predicate
  cases f.className <;> rfl

/-! ## Requests -/

/-- A request in shape is in shape on the wire. -/
theorem EnlistRequest.Shaped.onWire {req : EnlistRequest σ} (h : req.Shaped) :
    req.onWire.Shaped := by
  obtain ⟨hfilter, hrows⟩ := h
  constructor
  · intro f hf
    obtain ⟨f', hf', rfl⟩ := Option.map_eq_some_iff.mp hf
    obtain ⟨hoperand, hclass⟩ := hfilter f' hf'
    refine ⟨fun hkind => ?_, hclass⟩
    simpa [Filter.onWire] using hoperand hkind
  · intro rows hwire
    obtain ⟨rows', hrows', rfl⟩ := Option.map_eq_some_iff.mp hwire
    have hfits := hrows rows' hrows'
    cases rows' <;>
      simpa [WireRows.Fits, WireRows.onWire, WireRows.items, WireRows.length, WireRows.keys,
        ValuesFit, EnlistRequest.onWire] using hfits

/-- What the receiver of a request makes of it. Everything but its deployment info is as its
sender had it, its rows are those of the sender in order, and its filter accepts what it
should. -/
structure EnlistRequest.ReceivedAs (ctx : MarshalContext) (loader : ClassLoader σ)
    (req received : EnlistRequest σ) : Prop where
  metadata : received = { req with
    base := { req.base with deployment := received.base.deployment }
    addDeployment := received.addDeployment
    filter := received.filter
    pending := none
    enlisted := received.enlisted }
  rows : received.enlisted = some ((req.pending.getD []).map (Row.enlisted ctx loader))
  filter : received.filter.map Filter.evaluate = req.filter.map (Filter.decides loader)

namespace EnlistRequest

/-- The rows of a request are rebuilt from the wire form of the sender's rows. -/
theorem unmarshalRows_form {req : EnlistRequest σ} {ctx : MarshalContext} {loader : ClassLoader σ}
    {rows : List Row} {wire : WireRows σ} (hconvert : convertRows ctx req.op rows = .ok wire)
    (hwire : req.wire = some wire.onWire)
    (hrows : ∀ row ∈ rows, row.Rebuildable req.keepBinary loader) :
    req.unmarshalRows loader = (.ok (), { req with
      wire := none, enlisted := some (rows.map (Row.enlisted ctx loader)) }) := by
  have hrebuilt : (splitRows wire.onWire).mapM (unmarshalRow req.keepBinary loader) =
      .ok (rows.map (Row.enlisted ctx loader)) := by
    rw [splitRows_onWire, splitRows_convertRows hconvert]
    exact mapM_unmarshalRow_form ctx hrows
  have hop : (req.op.isNone && wire.onWire.length != 0) = false := by
    obtain ⟨-, -, rfl⟩ | ⟨o, ho, -, -⟩ := convertRows_eq hconvert
    · exact Bool.and_false _
    · rw [ho]
      rfl
  simp only [unmarshalRows, hwire, hop, Bool.false_eq_true, if_false, hrebuilt]

/-- A request that can be rebuilt is received as its sender made it. -/
theorem unmarshal_marshalled {ctx : MarshalContext} {loader : ClassLoader σ}
    {req marshalled : EnlistRequest σ} (hwire : req.wire = none)
    (h : req.marshal ctx = .ok marshalled)
    (hrows : ∀ row ∈ req.pending.getD [], row.Rebuildable req.keepBinary loader)
    (hfilter : ∀ f, req.filter = some f → f.Rebuildable req.keepBinary loader) :
    ∃ received, marshalled.onWire.unmarshal loader = (.ok (), received) ∧
      req.ReceivedAs ctx loader received := by
  obtain ⟨deployment, addDeployment, wire, rfl, hconverted⟩ := marshal_eq h
  let sent : EnlistRequest σ := { req with
    base := { req.base with deployment := deployment }
    addDeployment := addDeployment
    pending := none
    wire := wire.map WireRows.onWire
    enlisted := none }
  obtain ⟨filter, hunmarshal, hdecides⟩ : ∃ filter : Option (Filter σ),
      ({ sent with filter := (req.filter.map Filter.marshal).map Filter.onWire } :
          EnlistRequest σ).unmarshalFilter loader = (.ok (), { sent with filter := filter }) ∧
        filter.map Filter.evaluate = req.filter.map (Filter.decides loader) := by
    cases hf : req.filter with
    | none => exact ⟨none, rfl, rfl⟩
    | some f =>
      obtain ⟨rebuilt, hrebuilt, hevaluate⟩ := (hfilter f hf).unmarshal
      have hrebuilt' : f.marshal.onWire.unmarshal sent.keepBinary loader = (.ok (), rebuilt) :=
        hrebuilt
      refine ⟨some rebuilt, ?_, congrArg some hevaluate⟩
      simp only [unmarshalFilter, Option.map_some, hrebuilt']
  have hreceived : ∀ enlisted, ({ sent with filter := filter } : EnlistRequest σ).unmarshalRows
      loader = (.ok (), { sent with filter := filter, wire := none, enlisted := some enlisted }) →
      enlisted = (req.pending.getD []).map (Row.enlisted ctx loader) →
      ∃ received, EnlistRequest.unmarshal loader
          { sent with filter := (req.filter.map Filter.marshal).map Filter.onWire } =
          (.ok (), received) ∧ req.ReceivedAs ctx loader received := by
    intro enlisted hrows henlisted
    refine ⟨{ sent with filter := filter, wire := none, enlisted := some enlisted }, ?_, ?_, ?_, ?_⟩
    · simp only [unmarshal, hunmarshal]
      exact hrows
    · rw [← hwire]
    · exact congrArg some henlisted
    · exact hdecides
  obtain ⟨hnone, hwire'⟩ | ⟨rows, w, hpending, rfl, hconvert⟩ := hconverted
  · refine hreceived [] ?_ (by rw [hnone]; rfl)
    have hsent : sent.wire = none := by rw [show sent.wire = wire.map WireRows.onWire from rfl,
      hwire', hwire, Option.map_none]
    simp only [unmarshalRows, hsent]
    rfl
  · rw [hpending, Option.getD_some] at hrows
    refine hreceived _ (unmarshalRows_form hconvert rfl hrows) ?_
    rw [hpending, Option.getD_some]

end EnlistRequest

end Enlistment
