import Enlistment.Proofs.Caller.ReceiveLimits
import Enlistment.Proofs.Message.Rebuilding
import Enlistment.Proofs.Node.StoredValues

/-!
# The rows of decoded requests

The rows of a request from a decoder fit its operation, so pairing the keys with what goes with
them loses nothing. Unmarshalling rebuilds every one of these rows, or fails. What it rebuilds can
be tried: the keys have octets, the rows have the shape of the operation, and processors are known.
-/

namespace Enlistment

open Wire

variable {σ : Type}

/-! ## Requests from a decoder -/

namespace EnlistRequest

/-- Requests that a decoder has given. -/
inductive Decoded : EnlistRequest σ → Prop
  | next {accepted : List MessageType} {maxLength : Nat} {d d' : Decoder} {record : RequestRecord}
      (h : d.Reached accepted maxLength) (hnext : d.next = (.ok (some ⟨.request, record⟩), d')) :
      Decoded (WireForm.ofRecord record)

/-- A request from a decoder is in shape. -/
theorem Decoded.shaped {req : EnlistRequest σ} (h : req.Decoded) : req.Shaped := by
  obtain ⟨hreached, hnext⟩ := h
  exact (Message.Built.decoded (σ := σ) hreached hnext).shaped

/-- A request from a decoder is as it goes on the wire. -/
theorem Decoded.onWire {req : EnlistRequest σ} (h : req.Decoded) : req.onWire = req := by
  obtain ⟨-, -⟩ := h
  exact onWire_ofRecord _

end EnlistRequest

/-- A request that a node has read comes from a decoder. -/
theorem Node.decoded_of_decodeRequest {n : Node σ} {payload : Bytes} {req : EnlistRequest σ}
    (h : n.decodeRequest payload = .ok req) : req.Decoded := by
  obtain ⟨record, hfound, rfl⟩ := decodeRequest_eq_ok.mp h
  exact .next (.feed _ .fresh) (Prod.ext (Decoder.next_of_firstOf hfound) rfl)

/-! ## Splitting rows -/

/-- The values that go with the keys of rows in wire form. -/
def WireRows.values : WireRows σ → List ValueObject
  | entries _ values => values
  | _ => []

/-- The invocations that go with the keys of rows in wire form. -/
def WireRows.invocations : WireRows σ → List (InvokeValue σ)
  | invokes _ items => items
  | _ => []

/-- Pairing things with as many others loses none of the others. -/
theorem filterMap_zipWith_right {A B C : Type} {f : A → B → C} {g : C → Option B}
    (hg : ∀ a b, g (f a b) = some b) {xs : List A} {ys : List B} (h : ys.length = xs.length) :
    (xs.zipWith f ys).filterMap g = ys := by
  induction xs generalizing ys with
  | nil => exact (List.length_eq_zero_iff.mp h).symm
  | cons x rest ih =>
    cases ys with
    | nil => cases h
    | cons y others =>
      rw [List.zipWith_cons_cons, List.filterMap_cons_some (hg x y), ih (Nat.succ.inj h)]

/-- What pairing makes is made of pairs. -/
theorem exists_of_mem_zipWith {A B C : Type} {f : A → B → C} {xs : List A} {ys : List B} {c : C}
    (h : c ∈ xs.zipWith f ys) : ∃ a b, f a b = c := by
  rw [← List.map_uncurry_zip_eq_zipWith] at h
  obtain ⟨⟨a, b⟩, -, rfl⟩ := List.mem_map.mp h
  exact ⟨a, b, rfl⟩

namespace EnlistRequest

/-- Rows that fit an operation are split into rows with all of their values. -/
theorem splitRows_values {op : Option Operation} {rows : WireRows σ} (h : rows.Fits op) :
    (splitRows rows).filterMap EnlistedRow.valueObject? = rows.values := by
  cases rows with
  | keysOnly keys =>
    refine List.filterMap_eq_nil_iff.mpr fun row hrow => ?_
    obtain ⟨k, -, rfl⟩ := List.mem_map.mp hrow
    rfl
  | entries keys values =>
    exact filterMap_zipWith_right (f := EnlistedRow.entry) (fun _ _ => rfl) h.1
  | invokes keys items =>
    refine List.filterMap_eq_nil_iff.mpr fun row hrow => ?_
    obtain ⟨k, i, rfl⟩ := exists_of_mem_zipWith hrow
    rfl

/-- Rows that fit an operation are split into rows with all of their invocations. -/
theorem splitRows_invocations {op : Option Operation} {rows : WireRows σ} (h : rows.Fits op) :
    (splitRows rows).filterMap EnlistedRow.invocation? = rows.invocations := by
  cases rows with
  | keysOnly keys =>
    refine List.filterMap_eq_nil_iff.mpr fun row hrow => ?_
    obtain ⟨k, -, rfl⟩ := List.mem_map.mp hrow
    rfl
  | entries keys values =>
    refine List.filterMap_eq_nil_iff.mpr fun row hrow => ?_
    obtain ⟨k, v, rfl⟩ := exists_of_mem_zipWith hrow
    rfl
  | invokes keys items =>
    exact filterMap_zipWith_right (f := EnlistedRow.invoke) (fun _ _ => rfl) h.1

/-- Rows that fit an operation are split into rows of its shape. -/
theorem splitRows_fits {op : Operation} {rows : WireRows σ} (h : rows.Fits (some op)) :
    ∀ row ∈ splitRows rows, row.Fits op := by
  intro row hrow
  cases rows with
  | keysOnly keys =>
    obtain ⟨k, -, rfl⟩ := List.mem_map.mp hrow
    exact h op rfl
  | entries keys values =>
    obtain ⟨k, v, rfl⟩ := exists_of_mem_zipWith hrow
    exact h.2 op rfl
  | invokes keys items =>
    obtain ⟨k, i, rfl⟩ := exists_of_mem_zipWith hrow
    obtain ⟨-, o, ho, hinvoke⟩ := h
    rwa [← Option.some.inj ho] at hinvoke

/-! ## Rebuilt rows -/

/-- Values that are rebuilt one by one keep their octets. -/
theorem unmarshalEach_kept {keepBinary : Bool} {hasClass : String → Bool}
    {args args' : List ValueObject}
    (h : unmarshalEach (ValueObject.unmarshal keepBinary hasClass) args = (.ok (), args')) :
    args'.map ValueObject.onWire = args.map ValueObject.onWire := by
  induction args generalizing args' with
  | nil =>
    obtain rfl := (Prod.mk.inj h).2
    rfl
  | cons o rest ih =>
    unfold unmarshalEach at h
    have hkept : (o.unmarshal keepBinary hasClass).2.onWire = o.onWire := rfl
    rcases ho : o.unmarshal keepBinary hasClass with ⟨_ | _, o'⟩ <;> rw [ho] at h hkept
    · cases h
    · obtain ⟨hresult, rfl⟩ := Prod.mk.inj h
      rw [List.map_cons, List.map_cons, ih (Prod.ext hresult rfl), hkept]

/-- A row that is rebuilt is as it was on the wire. -/
theorem unmarshalRow_kept {keepBinary : Bool} {loader : ClassLoader σ} {row row' : EnlistedRow σ}
    (h : unmarshalRow keepBinary loader row = .ok row') : row'.onWire = row.onWire := by
  cases rebuilt_of_unmarshalRow h with
  | key hk =>
    obtain rfl := (Prod.mk.inj hk).2
    rfl
  | entry hk hv =>
    obtain rfl := (Prod.mk.inj hk).2
    obtain rfl := (Prod.mk.inj hv).2
    rfl
  | @invoke k k' i i' hk hi =>
    obtain rfl := (Prod.mk.inj hk).2
    obtain ⟨args, p, hargs, -, rfl⟩ := InvokeValue.unmarshal_ok hi
    have hargs := unmarshalEach_kept hargs
    exact congrArg (fun args : List ValueObject =>
      EnlistedRow.invoke k.onWire { processor := i.processor, args }) hargs

/-- Whether rows are those of a request in wire form, in order, with all keys, values and
invocations. -/
structure CameThrough (wire : Option (WireRows σ)) (rows : List (EnlistedRow σ)) : Prop where
  keys : (rows.map EnlistedRow.onWire).map EnlistedRow.keyObject = wire.elim [] WireRows.keys
  values : (rows.map EnlistedRow.onWire).filterMap EnlistedRow.valueObject? =
    wire.elim [] WireRows.values
  invocations : (rows.map EnlistedRow.onWire).filterMap EnlistedRow.invocation? =
    wire.elim [] WireRows.invocations

/-- The rows in wire form of a request from a decoder fit its operation. Split, they have all keys,
values and invocations. -/
theorem Decoded.split {req : EnlistRequest σ} (h : req.Decoded) {rows : WireRows σ}
    (hwire : req.wire = some rows) :
    rows.Fits req.op ∧ (splitRows rows).map EnlistedRow.onWire = splitRows rows ∧
      CameThrough req.wire (splitRows rows) := by
  have hfits := h.shaped.rows rows hwire
  have hsame : req.wire.map WireRows.onWire = req.wire := congrArg EnlistRequest.wire h.onWire
  rw [hwire] at hsame
  have hbare : rows.onWire = rows := Option.some.inj hsame
  have hrows : (splitRows rows).map EnlistedRow.onWire = splitRows rows := by
    rw [← splitRows_onWire, hbare]
  refine ⟨hfits, hrows, ?_⟩
  rw [hwire]
  refine ⟨?_, ?_, ?_⟩ <;> rw [hrows]
  · exact splitRows_keys hfits
  · exact splitRows_values hfits
  · exact splitRows_invocations hfits

/-- The rows of a request from a decoder that is unmarshalled are rebuilt from its rows in wire
form. Without the latter there are none. -/
theorem Decoded.rebuilt {req req' : EnlistRequest σ} {loader : ClassLoader σ}
    (h : req.Decoded) (hreq : req.unmarshal loader = (.ok (), req')) :
    (req.wire = none ∧ req'.takeRows.1 = []) ∨
      ∃ rows, req.wire = some rows ∧
        (splitRows rows).mapM (unmarshalRow req.keepBinary loader) =
          .ok req'.takeRows.1 := by
  rcases unmarshal_takeRows hreq with ⟨hwire, hrows⟩ | hrebuilt
  · have hnone : req.enlisted = none := (congrArg EnlistRequest.enlisted h.onWire).symm
    rw [hrows, takeRows, hnone]
    exact .inl ⟨hwire, rfl⟩
  · exact .inr hrebuilt

/-- Rebuilding the rows of a request from a decoder drops none of its keys, values and
invocations. -/
theorem Decoded.cameThrough_of_mapM {req : EnlistRequest σ} {keepBinary : Bool}
    {loader : ClassLoader σ} (h : req.Decoded) {wire : WireRows σ} (hwire : req.wire = some wire)
    {rows : List (EnlistedRow σ)}
    (hrows : (splitRows wire).mapM (unmarshalRow keepBinary loader) = .ok rows) :
    CameThrough req.wire rows := by
  obtain ⟨-, -, hkeys, hvalues, hinvocations⟩ := h.split hwire
  have hkept := map_of_mapM hrows fun _ _ => unmarshalRow_kept
  exact ⟨hkept ▸ hkeys, hkept ▸ hvalues, hkept ▸ hinvocations⟩

/-- Unmarshalling a request from a decoder drops none of its keys, values and invocations. -/
theorem Decoded.cameThrough {req req' : EnlistRequest σ} {loader : ClassLoader σ}
    (h : req.Decoded) (hreq : req.unmarshal loader = (.ok (), req')) :
    CameThrough req.wire req'.takeRows.1 := by
  rcases h.rebuilt hreq with ⟨hwire, hrows⟩ | ⟨rows, hwire, hrows⟩
  · rw [hwire, hrows]
    exact ⟨rfl, rfl, rfl⟩
  · exact h.cameThrough_of_mapM hwire hrows

end EnlistRequest

/-! ## Rows that can be tried -/

/-- A row that can be tried under an operation: its key has octets, it has the shape that the
operation takes, and its processor is known if it has one. -/
structure EnlistedRow.Ready (op : Operation) (row : EnlistedRow σ) : Prop where
  key : row.keyObject.bytes.isSome = true
  shape : row.Fits op
  code : ∀ i, row.invocation? = some i → i.resolved.isSome = true

/-- A key that is rebuilt from octets has them. -/
theorem KeyObject.bytes_of_onWire {keepBinary : Bool} {hasClass : String → Bool} {k k' : KeyObject}
    (h : k.onWire.unmarshal keepBinary hasClass = (.ok (), k')) : k'.bytes.isSome = true := by
  obtain ⟨hdone, rfl⟩ := Prod.mk.inj h
  obtain ⟨bs, v, hbytes, -, -⟩ := rebuildValue_onWire (Prod.ext hdone rfl)
  exact Option.isSome_of_eq_some hbytes

namespace EnlistRequest

/-- A row that is rebuilt from octets is ready for an operation whose shape it has. -/
theorem unmarshalRow_ready {keepBinary : Bool} {loader : ClassLoader σ} {op : Operation}
    {row row' : EnlistedRow σ} (hfits : row.Fits op)
    (h : unmarshalRow keepBinary loader row.onWire = .ok row') : row'.Ready op := by
  cases row with
  | key k =>
    cases rebuilt_of_unmarshalRow h with
    | key hk => exact ⟨KeyObject.bytes_of_onWire hk, hfits, fun i hi => by cases hi⟩
  | entry k v =>
    cases rebuilt_of_unmarshalRow h with
    | entry hk hv => exact ⟨KeyObject.bytes_of_onWire hk, hfits, fun i hi => by cases hi⟩
  | invoke k i =>
    cases rebuilt_of_unmarshalRow h with
    | invoke hk hi =>
      obtain ⟨args, p, -, -, rfl⟩ := InvokeValue.unmarshal_ok hi
      refine ⟨KeyObject.bytes_of_onWire hk, hfits, fun i hi => ?_⟩
      obtain rfl := Option.some.inj hi
      rfl

/-- The rows of a request from a decoder are ready for its operation once they are rebuilt. -/
theorem Decoded.ready {req req' : EnlistRequest σ} {loader : ClassLoader σ} {op : Operation}
    (h : req.Decoded) (hop : req.op = some op) (hreq : req.unmarshal loader = (.ok (), req')) :
    ∀ row ∈ req'.takeRows.1, row.Ready op := by
  intro row hrow
  rcases h.rebuilt hreq with ⟨-, hrows⟩ | ⟨rows, hwire, hrows⟩
  · rw [hrows] at hrow
    cases hrow
  · obtain ⟨hfits, hbare, -⟩ := h.split hwire
    rw [hop] at hfits
    rw [← hbare] at hrows
    obtain ⟨before, hbefore, hrebuilt⟩ := exists_mem_of_mapM hrows row hrow
    obtain ⟨bare, hmem, rfl⟩ := List.mem_map.mp hbefore
    exact unmarshalRow_ready (splitRows_fits hfits bare hmem) hrebuilt

end EnlistRequest

end Enlistment
