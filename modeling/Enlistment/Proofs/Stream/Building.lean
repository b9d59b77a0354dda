import Enlistment.Proofs.Message.Marshalling
import Enlistment.Proofs.Stream.Receiving

/-!
# Messages that can come about

A message is made from its parts, taken from a decoder, or what is left of another one
after marshalling or unmarshalling. Whatever was done to it, it is in shape, and the operand of its
filter agrees with its octets.
-/

namespace Enlistment

open Wire

variable {σ : Type}

/-- Decoders that come about by feeding octets and calling for messages, with or without
success. -/
inductive Decoder.Reached (accepted : List MessageType) (maxLength : Nat) : Decoder → Prop
  | fresh : Reached accepted maxLength { accepted, maxLength }
  | feed {d : Decoder} (bs : Bytes) (h : Reached accepted maxLength d) :
      Reached accepted maxLength (d.feed bs)
  | next {d : Decoder} (h : Reached accepted maxLength d) : Reached accepted maxLength d.next.2

/-- Messages that can come about. Requests are made with rows that are not in wire form
yet, and filters in one of four ways. -/
inductive Message.Built : Message σ → Prop
  /-- Messages of all other types hold any data. -/
  | plain (m : Message σ) (hfilter : ∀ f, m ≠ filter f) (hrequest : ∀ r, m ≠ request r) : Built m
  | hasValue : Built (filter .hasValue)
  | noValue : Built (filter .noValue)
  | containsValue (v : Value) : Built (filter (.containsValue v))
  | custom (className : String) : Built (filter (.custom className))
  | request (r : EnlistRequest σ) (hwire : r.wire = none)
      (hfilter : ∀ f, r.filter = some f → Built (filter f)) : Built (request r)
  | filterOf {r : EnlistRequest σ} {f : Filter σ} (h : Built (.request r))
      (hf : r.filter = some f) : Built (filter f)
  | decoded {accepted : List MessageType} {maxLength : Nat} {d d' : Decoder} {draft : Draft}
      (h : d.Reached accepted maxLength) (hnext : d.next = (.ok (some draft), d')) :
      Built (.ofDraft draft)
  | marshal {ctx : MarshalContext} {m m' : Message σ} (h : Built m)
      (hm : m.marshal ctx = .ok m') : Built m'
  | unmarshal {m : Message σ} (keepBinary : Bool) (loader : ClassLoader σ) (h : Built m) :
      Built (m.unmarshal keepBinary loader).2
  | takeRows {r : EnlistRequest σ} (h : Built (.request r)) : Built (.request r.takeRows.2)

/-! ## Messages from a decoder -/

/-- A decoder whose message has been settled as far as it has been read. -/
structure Decoder.Orderly (d : Decoder) : Prop where
  idle : d.current = none → d.stack = {}
  current : ∀ draft, d.current = some draft →
    draft.type.layout.FieldsSettled d.stack.top.state draft.record

/-- The draft that an orderly decoder works on has been settled as far as it has been read. -/
theorem Decoder.Orderly.start {d : Decoder} {draft : Draft} (h : d.Orderly)
    (hstart : d.start = .ok (some draft)) :
    draft.type.layout.FieldsSettled d.stack.top.state draft.record := by
  unfold Decoder.start at hstart
  cases hcurrent : d.current with
  | some found =>
    simp only [hcurrent, Except.ok.injEq, Option.some.injEq] at hstart
    rw [← hstart]
    exact h.current found hcurrent
  | none =>
    simp only [hcurrent] at hstart
    split at hstart
    · simp at hstart
    · split at hstart
      · simp at hstart
      · next t ht =>
        rw [h.idle hcurrent]
        obtain rfl := Option.some.inj (Except.ok.inj hstart)
        exact t.layout.fieldsSettled_zero _

/-- Calling for a message leaves a decoder orderly. A message it gives has been settled, and
so have the messages in it. -/
theorem Decoder.Orderly.next {d : Decoder} (h : d.Orderly) :
    d.next.2.Orderly ∧ ∀ draft, d.next.1 = .ok (some draft) →
      draft.type.layout.Settled draft.record ∧
        draft.type.layout.FieldsSettled draft.type.layout.fieldCount draft.record := by
  cases hstart : d.start with
  | error e =>
    simp only [Decoder.next, hstart]
    exact ⟨h, fun draft hdraft => by cases hdraft⟩
  | ok m =>
    cases m with
    | none =>
      simp only [Decoder.next, hstart]
      exact ⟨h, fun draft hdraft => by cases hdraft⟩
    | some draft =>
      obtain ⟨type, record⟩ := draft
      have hsettled := type.layout.read_settled d.maxLength record ⟨d.stack, d.pending⟩
      obtain ⟨hfields, hall⟩ := type.layout.read_fieldsSettled type.layout_keepsSettled d.maxLength
        record ⟨d.stack, d.pending⟩ (h.start hstart)
      rw [next_of_start hstart]
      simp only [Draft.read]
      rcases hr : type.layout.read d.maxLength record ⟨d.stack, d.pending⟩ with
        ⟨_ | _ | e, record', src⟩ <;> rw [hr] at hsettled hfields hall
      · refine ⟨⟨fun _ => rfl, fun draft hdraft => by cases hdraft⟩, fun draft hdraft => ?_⟩
        obtain rfl := Option.some.inj (Except.ok.inj hdraft)
        exact ⟨hsettled rfl, hall rfl⟩
      all_goals
        refine ⟨⟨fun hnone => ?_, fun draft hdraft => ?_⟩, fun draft hdraft => ?_⟩
        · cases hnone
        · obtain rfl := Option.some.inj hdraft
          exact hfields
        · cases hdraft

/-- Every decoder that comes about is orderly. -/
theorem Decoder.Reached.orderly {accepted : List MessageType} {maxLength : Nat} {d : Decoder}
    (h : d.Reached accepted maxLength) : d.Orderly := by
  induction h with
  | fresh => exact ⟨fun _ => rfl, fun draft hdraft => by cases hdraft⟩
  | feed bs h ih => exact ⟨ih.idle, ih.current⟩
  | next h ih => exact ih.next.1

/-! ## Messages of any origin -/

/-- A message whose record has been settled, with the messages in it, is in shape. -/
theorem Message.shaped_ofDraft {d : Draft} (h : d.type.layout.Settled d.record)
    (hfields : d.type.layout.FieldsSettled d.type.layout.fieldCount d.record) :
    (ofDraft d : Message σ).Shaped := by
  obtain ⟨type, record⟩ := d
  cases type with
  | filter => exact Filter.shaped_ofRecord h
  | request => exact EnlistRequest.shaped_ofRecord h hfields
  | _ => trivial

/-- Marshalling keeps a message in shape. -/
theorem Message.Shaped.marshal {ctx : MarshalContext} {m m' : Message σ} (h : m.Shaped)
    (hm : m.marshal ctx = .ok m') : m'.Shaped := by
  cases m with
  | filter f =>
    obtain rfl := Except.ok.inj hm
    exact Filter.Shaped.marshal h
  | request r =>
    simp only [Message.marshal] at hm
    cases hr : r.marshal ctx with
    | error e => simp [hr, Except.map] at hm
    | ok r' =>
      simp only [hr, Except.map, Except.ok.injEq] at hm
      rw [← hm]
      exact EnlistRequest.Shaped.marshal h hr
  | _ =>
    obtain rfl := Except.ok.inj hm
    trivial

/-- Unmarshalling keeps a message in shape, also if it fails. -/
theorem Message.Shaped.unmarshal {m : Message σ} (h : m.Shaped) (keepBinary : Bool)
    (loader : ClassLoader σ) : (m.unmarshal keepBinary loader).2.Shaped := by
  cases m with
  | filter f => exact Filter.Shaped.unmarshal h keepBinary loader
  | request r => exact EnlistRequest.Shaped.unmarshal h loader
  | _ => trivial

/-- Every message that comes about is in shape. The induction is on how it came about. -/
theorem Message.Built.shaped {m : Message σ} (h : m.Built) : m.Shaped := by
  induction h with
  | plain m hfilter hrequest =>
    cases m with
    | filter f => exact absurd rfl (hfilter f)
    | request r => exact absurd rfl (hrequest r)
    | _ => trivial
  | hasValue => exact Filter.shaped_of_kind (.inl rfl)
  | noValue => exact Filter.shaped_of_kind (.inr (.inl rfl))
  | containsValue v => exact Filter.shaped_of_kind (.inr (.inr (.inl ⟨rfl, rfl⟩)))
  | custom className => exact Filter.shaped_of_kind (.inr (.inr (.inr ⟨rfl, rfl⟩)))
  | request r hwire hfilter ih =>
    refine ⟨ih, fun rows hrows => ?_⟩
    rw [hwire] at hrows
    cases hrows
  | filterOf h hf ih => exact ih.filter _ hf
  | decoded h hnext =>
    obtain ⟨hsettled, hfields⟩ := h.orderly.next.2 _ (by rw [hnext])
    exact shaped_ofDraft hsettled hfields
  | marshal h hm ih => exact ih.marshal hm
  | unmarshal keepBinary loader h ih => exact ih.unmarshal keepBinary loader
  | takeRows h ih => exact ⟨ih.filter, ih.rows⟩

/-! ## Operands of any origin -/

/-- An object whose octets and value, if it has both, were made from each other. -/
def ValueObject.Agrees (o : ValueObject) : Prop :=
  ∀ bs v, o.bytes = some bs → o.value = some v → bs = v.encode ∨ Value.decode bs = .ok v

/-- A filter whose operand agrees with its octets. -/
def Filter.Agrees (f : Filter σ) : Prop := ∀ o, f.operand = some o → o.Agrees

/-- A message in which the operand of a filter agrees with its octets. -/
def Message.Agrees : Message σ → Prop
  | filter f => f.Agrees
  | request r => ∀ f, r.filter = some f → f.Agrees
  | _ => True

/-- An object agrees with the octets that are filled in. -/
theorem ValueObject.Agrees.marshal {o : ValueObject} (h : o.Agrees) : o.marshal.Agrees := by
  obtain ⟨_ | bs, _ | v⟩ := o
  · exact h
  · intro bs v' hbs hv
    obtain rfl := Option.some.inj hbs
    obtain rfl := Option.some.inj hv
    exact .inl rfl
  · exact h
  · exact h

/-- An object agrees with the value that is filled in. -/
theorem ValueObject.Agrees.unmarshal {o : ValueObject} (h : o.Agrees) (keepBinary : Bool)
    (hasClass : String → Bool) : (o.unmarshal keepBinary hasClass).2.Agrees := by
  obtain ⟨bytes, _ | v⟩ := o
  · intro bs v hbs hv
    obtain rfl : bytes = some bs := hbs
    replace hv : (rebuildValue keepBinary hasClass (some bs) none).2 = some v := hv
    rw [rebuildValue] at hv
    cases hdecode : Value.decode bs with
    | error e =>
      rw [hdecode] at hv
      cases hv
    | ok found =>
      rw [hdecode] at hv
      obtain rfl := Option.some.inj hv
      exact .inr rfl
  · exact h

/-- A filter that is marshalled agrees with its octets. -/
theorem Filter.Agrees.marshal {f : Filter σ} (h : f.Agrees) : f.marshal.Agrees := by
  intro o ho
  obtain ⟨o', ho', rfl⟩ := Option.map_eq_some_iff.mp ho
  exact (h o' ho').marshal

/-- A filter that is unmarshalled, with or without success, agrees with its octets. -/
theorem Filter.Agrees.unmarshal {f : Filter σ} (h : f.Agrees) (keepBinary : Bool)
    (loader : ClassLoader σ) : (f.unmarshal keepBinary loader).2.Agrees := by
  obtain ⟨kind, operand, className, resolved⟩ := f
  have hoperand :
      (Filter.unmarshal keepBinary loader ⟨kind, operand, className, resolved⟩).2.operand =
        operand.map fun o => (o.unmarshal keepBinary loader.hasClass).2 := by
    unfold Filter.unmarshal
    dsimp only
    split
    · cases operand <;> rfl
    · cases operand <;> rfl
    · split <;> cases operand <;> rfl
  intro o ho
  obtain ⟨o', ho', rfl⟩ := Option.map_eq_some_iff.mp (hoperand.symm.trans ho)
  exact (h o' ho').unmarshal keepBinary loader.hasClass

/-- A filter from a decoder has octets alone. -/
theorem Filter.agrees_ofRecord (r : FilterRecord) : (WireForm.ofRecord r : Filter σ).Agrees := by
  intro o ho bs v _ hv
  obtain ⟨record, -, rfl⟩ := Option.map_eq_some_iff.mp ho
  cases hv

/-- A message from a decoder agrees with its octets. -/
theorem Message.agrees_ofDraft (d : Draft) : (ofDraft d : Message σ).Agrees := by
  obtain ⟨type, record⟩ := d
  cases type with
  | filter => exact Filter.agrees_ofRecord record
  | request =>
    intro f hf
    obtain ⟨r, -, rfl⟩ := Option.map_eq_some_iff.mp hf
    exact Filter.agrees_ofRecord r
  | _ => trivial

/-- A message that is marshalled agrees with its octets. -/
theorem Message.Agrees.marshal {ctx : MarshalContext} {m m' : Message σ} (h : m.Agrees)
    (hm : m.marshal ctx = .ok m') : m'.Agrees := by
  cases m with
  | filter f =>
    obtain rfl := Except.ok.inj hm
    exact Filter.Agrees.marshal h
  | request r =>
    simp only [Message.marshal] at hm
    cases hr : r.marshal ctx with
    | error e => simp [hr, Except.map] at hm
    | ok r' =>
      simp only [hr, Except.map, Except.ok.injEq] at hm
      obtain ⟨deployment, addDeployment, wire, rfl, -⟩ := EnlistRequest.marshal_eq hr
      rw [← hm]
      intro f hf
      obtain ⟨f', hf', rfl⟩ := Option.map_eq_some_iff.mp hf
      exact Filter.Agrees.marshal (h f' hf')
  | _ =>
    obtain rfl := Except.ok.inj hm
    trivial

/-- A message that is unmarshalled, with or without success, agrees with its octets. -/
theorem Message.Agrees.unmarshal {m : Message σ} (h : m.Agrees) (keepBinary : Bool)
    (loader : ClassLoader σ) : (m.unmarshal keepBinary loader).2.Agrees := by
  cases m with
  | filter f => exact Filter.Agrees.unmarshal h keepBinary loader
  | request r =>
    intro f hf
    obtain ⟨f', hf', rfl⟩ := Option.map_eq_some_iff.mp ((r.filter_unmarshal loader).symm.trans hf)
    exact Filter.Agrees.unmarshal (h f' hf') r.keepBinary loader
  | _ => trivial

/-- Every message that comes about agrees with its octets. The induction is on how it came
about. -/
theorem Message.Built.agrees {m : Message σ} (h : m.Built) : m.Agrees := by
  induction h with
  | plain m hfilter hrequest =>
    cases m with
    | filter f => exact absurd rfl (hfilter f)
    | request r => exact absurd rfl (hrequest r)
    | _ => trivial
  | hasValue => exact fun o ho => by cases ho
  | noValue => exact fun o ho => by cases ho
  | containsValue v =>
    intro o ho bs v' hbs hv
    obtain rfl := Option.some.inj ho
    cases hbs
  | custom className => exact fun o ho => by cases ho
  | request r hwire hfilter ih => exact ih
  | filterOf h hf ih => exact ih _ hf
  | decoded h hnext => exact agrees_ofDraft _
  | marshal h hm ih => exact ih.marshal hm
  | unmarshal keepBinary loader h ih => exact ih.unmarshal keepBinary loader
  | takeRows h ih => exact ih

end Enlistment
