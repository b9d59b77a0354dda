import Enlistment.Proofs.Message.Marshalling
import Enlistment.Proofs.Message.Views

/-!
# The rows of a request

Unmarshalling rebuilds one row for each key that a request declares. It fills in values and
leaves the octets and the partition of every key alone, and the rest of the request as well.
-/

namespace Enlistment

variable {σ : Type}

/-- What is made of a list one by one is made of its elements. -/
theorem exists_mem_of_mapM {A B E : Type} {f : A → Except E B} {xs : List A} {ys : List B}
    (h : xs.mapM f = .ok ys) : ∀ y ∈ ys, ∃ x ∈ xs, f x = .ok y := by
  induction xs generalizing ys with
  | nil =>
    obtain rfl := Except.ok.inj h
    exact List.forall_mem_nil _
  | cons x rest ih =>
    rw [List.mapM_cons] at h
    cases hx : f x with
    | error e => simp [hx, bind, Except.bind] at h
    | ok y =>
      cases hrest : rest.mapM f with
      | error e => simp [hx, hrest, bind, Except.bind] at h
      | ok others =>
        simp only [hx, hrest, bind, Except.bind, pure, Except.pure, Except.ok.injEq] at h
        rw [← h]
        refine List.forall_mem_cons.mpr ⟨⟨x, List.mem_cons_self, hx⟩, fun z hz => ?_⟩
        obtain ⟨w, hw, hfw⟩ := ih hrest z hz
        exact ⟨w, List.mem_cons_of_mem _ hw, hfw⟩

/-- What is made of the elements of a list keeps what is made of each element keeps. -/
theorem map_of_mapM {A B C E : Type} {f : A → Except E B} {xs : List A} {ys : List B} {g : A → C}
    {g' : B → C} (h : xs.mapM f = .ok ys) (hkept : ∀ x y, f x = .ok y → g' y = g x) :
    ys.map g' = xs.map g := by
  induction xs generalizing ys with
  | nil =>
    obtain rfl := Except.ok.inj h
    rfl
  | cons x rest ih =>
    rw [List.mapM_cons] at h
    cases hx : f x with
    | error e => simp [hx, bind, Except.bind] at h
    | ok y =>
      cases hrest : rest.mapM f with
      | error e => simp [hx, hrest, bind, Except.bind] at h
      | ok others =>
        simp only [hx, hrest, bind, Except.bind, pure, Except.pure, Except.ok.injEq] at h
        rw [← h, List.map_cons, List.map_cons, ih hrest, hkept x y hx]

/-- Making something of a list one by one fails if and only if it fails for an element. -/
theorem mapM_error_iff {A B E : Type} {f : A → Except E B} {xs : List A} :
    (∃ e, xs.mapM f = .error e) ↔ ∃ x ∈ xs, ∃ e, f x = .error e := by
  induction xs with
  | nil =>
    constructor
    · rintro ⟨e, h⟩
      cases h
    · rintro ⟨x, hx, -⟩
      cases hx
  | cons x rest ih =>
    rw [List.mapM_cons]
    cases hx : f x with
    | error e => exact ⟨fun _ => ⟨x, List.mem_cons_self, e, hx⟩, fun _ => ⟨e, rfl⟩⟩
    | ok y =>
      have hhead : ¬ ∃ e, f x = .error e := by
        rintro ⟨e, he⟩
        cases hx.symm.trans he
      simp only [List.mem_cons, exists_eq_or_imp, hhead, false_or, ← ih]
      cases rest.mapM f with
      | error e => exact ⟨fun _ => ⟨e, rfl⟩, fun _ => ⟨e, rfl⟩⟩
      | ok ys => exact ⟨fun ⟨_, h⟩ => (by cases h), fun ⟨_, h⟩ => by cases h⟩

/-- The keys that a request declares: those of its rows in wire form, or else of the rows
that have been rebuilt. -/
def EnlistRequest.declaredKeys (req : EnlistRequest σ) : List KeyObject :=
  match req.wire with
  | some rows => rows.keys
  | none => (req.enlisted.getD []).map EnlistedRow.keyObject

/-- Rebuilding a key fills in nothing but its value. -/
theorem KeyObject.unmarshal_onWire (keepBinary : Bool) (hasClass : String → Bool)
    (k : KeyObject) : (k.unmarshal keepBinary hasClass).2.onWire = k.onWire := rfl

/-- An invocation that is rebuilt has its arguments rebuilt and its processor resolved. -/
theorem InvokeValue.unmarshal_ok {keepBinary : Bool} {loader : ClassLoader σ}
    {i i' : InvokeValue σ} (h : i.unmarshal keepBinary loader = (.ok (), i')) :
    ∃ args p, unmarshalEach (ValueObject.unmarshal keepBinary loader.hasClass) i.args =
        (.ok (), args) ∧
      loader.processor i.processor = some p ∧ i' = { i with args := args, resolved := some p } := by
  unfold unmarshal at h
  split at h
  · cases h
  · next args hargs =>
    split at h
    · cases h
    · next p hp => exact ⟨args, p, hargs, hp, (Prod.mk.inj h).2.symm⟩

namespace EnlistRequest

/-- What a row is rebuilt to: its key is rebuilt, and so is what goes with it. -/
inductive Rebuilt (keepBinary : Bool) (loader : ClassLoader σ) :
    EnlistedRow σ → EnlistedRow σ → Prop
  | key {k k' : KeyObject} (hk : k.unmarshal keepBinary loader.hasClass = (.ok (), k')) :
      Rebuilt keepBinary loader (.key k) (.key k')
  | entry {k k' : KeyObject} {v v' : ValueObject}
      (hk : k.unmarshal keepBinary loader.hasClass = (.ok (), k'))
      (hv : v.unmarshal keepBinary loader.hasClass = (.ok (), v')) :
      Rebuilt keepBinary loader (.entry k v) (.entry k' v')
  | invoke {k k' : KeyObject} {i i' : InvokeValue σ}
      (hk : k.unmarshal keepBinary loader.hasClass = (.ok (), k'))
      (hi : i.unmarshal keepBinary loader = (.ok (), i')) :
      Rebuilt keepBinary loader (.invoke k i) (.invoke k' i')

/-- A row is rebuilt as a whole or not at all. -/
theorem rebuilt_of_unmarshalRow {keepBinary : Bool} {loader : ClassLoader σ}
    {row row' : EnlistedRow σ} (h : unmarshalRow keepBinary loader row = .ok row') :
    Rebuilt keepBinary loader row row' := by
  cases row with
  | key k =>
    simp only [unmarshalRow] at h
    rcases hk : k.unmarshal keepBinary loader.hasClass with ⟨_ | _, k'⟩ <;> simp only [hk] at h
    · cases h
    · obtain rfl := Except.ok.inj h
      exact .key hk
  | entry k v =>
    simp only [unmarshalRow] at h
    rcases hk : k.unmarshal keepBinary loader.hasClass with ⟨_ | _, k'⟩ <;> simp only [hk] at h
    · cases h
    · rcases hv : v.unmarshal keepBinary loader.hasClass with ⟨_ | _, v'⟩ <;> simp only [hv] at h
      · cases h
      · obtain rfl := Except.ok.inj h
        exact .entry hk hv
  | invoke k i =>
    simp only [unmarshalRow] at h
    rcases hk : k.unmarshal keepBinary loader.hasClass with ⟨_ | _, k'⟩ <;> simp only [hk] at h
    · cases h
    · rcases hi : i.unmarshal keepBinary loader with ⟨_ | _, i'⟩ <;> simp only [hi] at h
      · cases h
      · obtain rfl := Except.ok.inj h
        exact .invoke hk hi

/-- A row that is rebuilt keeps its key. -/
theorem unmarshalRow_key {keepBinary : Bool} {loader : ClassLoader σ} {row row' : EnlistedRow σ}
    (h : unmarshalRow keepBinary loader row = .ok row') :
    row'.keyObject.onWire = row.keyObject.onWire := by
  have hkey : ∀ {k k' : KeyObject}, k.unmarshal keepBinary loader.hasClass = (.ok (), k') →
      k'.onWire = k.onWire := by
    intro k k' hk
    rw [← k.unmarshal_onWire keepBinary loader.hasClass, hk]
  cases rebuilt_of_unmarshalRow h with
  | key hk => exact hkey hk
  | entry hk _ => exact hkey hk
  | invoke hk _ => exact hkey hk

/-- Rows that are rebuilt one by one keep their keys. -/
theorem mapM_unmarshalRow_keys {keepBinary : Bool} {loader : ClassLoader σ}
    {rows rows' : List (EnlistedRow σ)}
    (h : rows.mapM (unmarshalRow keepBinary loader) = .ok rows') :
    rows'.map (fun row => row.keyObject.onWire) = rows.map fun row => row.keyObject.onWire :=
  map_of_mapM h fun _ _ => unmarshalRow_key

/-- Pairing keys with as many other things loses none of them. -/
theorem map_key_zipWith {B : Type} {keys : List KeyObject} {items : List B}
    (row : KeyObject → B → EnlistedRow σ) (hrow : ∀ k b, (row k b).keyObject = k)
    (h : items.length = keys.length) :
    (keys.zipWith row items).map EnlistedRow.keyObject = keys := by
  have hzip := List.map_fst_zip (Nat.le_of_eq h.symm)
  rw [List.zip, List.map_zipWith] at hzip
  simp only [List.map_zipWith, hrow]
  exact hzip

/-- Rows that fit an operation are split into one row for each key. -/
theorem splitRows_keys {op : Option Operation} {rows : WireRows σ} (h : rows.Fits op) :
    (splitRows rows).map EnlistedRow.keyObject = rows.keys := by
  cases rows with
  | keysOnly keys =>
    rw [splitRows, List.map_map]
    exact List.map_id keys
  | entries keys values => exact map_key_zipWith _ (fun _ _ => rfl) h.1
  | invokes keys items => exact map_key_zipWith _ (fun _ _ => rfl) h.1

/-- Rebuilding the filter of a request changes nothing else of it. -/
theorem unmarshalFilter_eq (req : EnlistRequest σ) (loader : ClassLoader σ) :
    ∃ filter, (req.unmarshalFilter loader).2 = { req with filter := filter } := by
  unfold unmarshalFilter
  split
  · next h => exact ⟨req.filter, rfl⟩
  · exact ⟨_, rfl⟩

/-- What may come of unmarshalling a request: the filter cannot be rebuilt, there are no rows to
rebuild, they have no operation, one of them cannot be rebuilt, or all are rebuilt. -/
inductive Unmarshals (loader : ClassLoader σ) (req : EnlistRequest σ) :
    Except UnmarshalError Unit → EnlistRequest σ → Prop
  | filterFails {filter : Option (Filter σ)} {e : UnmarshalError}
      (hfilter : req.unmarshalFilter loader = (.error e, { req with filter := filter })) :
      Unmarshals loader req (.error e) { req with filter := filter }
  | noRows {filter : Option (Filter σ)}
      (hfilter : req.unmarshalFilter loader = (.ok (), { req with filter := filter }))
      (hwire : req.wire = none) :
      Unmarshals loader req (.ok ())
        { req with filter := filter, enlisted := some (req.enlisted.getD []) }
  | noOperation {filter : Option (Filter σ)} {wire : WireRows σ}
      (hfilter : req.unmarshalFilter loader = (.ok (), { req with filter := filter }))
      (hwire : req.wire = some wire) (hop : req.op = none) (hlength : wire.length ≠ 0) :
      Unmarshals loader req (.error .missingOperation) { req with filter := filter }
  | rowFails {filter : Option (Filter σ)} {wire : WireRows σ} {e : UnmarshalError}
      (hfilter : req.unmarshalFilter loader = (.ok (), { req with filter := filter }))
      (hwire : req.wire = some wire) (hop : req.op.isSome = true ∨ wire.length = 0)
      (hrows : (splitRows wire).mapM (unmarshalRow req.keepBinary loader) = .error e) :
      Unmarshals loader req (.error e) { req with filter := filter, wire := none }
  | rebuilt {filter : Option (Filter σ)} {wire : WireRows σ} {rows : List (EnlistedRow σ)}
      (hfilter : req.unmarshalFilter loader = (.ok (), { req with filter := filter }))
      (hwire : req.wire = some wire) (hop : req.op.isSome = true ∨ wire.length = 0)
      (hrows : (splitRows wire).mapM (unmarshalRow req.keepBinary loader) = .ok rows) :
      Unmarshals loader req (.ok ())
        { req with filter := filter, wire := none, enlisted := some rows }

/-- Unmarshalling goes one of these ways. -/
theorem unmarshals {req req' : EnlistRequest σ} {loader : ClassLoader σ}
    {result : Except UnmarshalError Unit} (h : req.unmarshal loader = (result, req')) :
    Unmarshals loader req result req' := by
  obtain ⟨filter, hsame⟩ := req.unmarshalFilter_eq loader
  unfold unmarshal at h
  rcases hfilter : req.unmarshalFilter loader with ⟨e | _, req₁⟩ <;> rw [hfilter] at hsame h <;>
    obtain rfl : req₁ = { req with filter := filter } := hsame
  · obtain ⟨rfl, rfl⟩ := Prod.mk.inj h
    exact .filterFails hfilter
  unfold unmarshalRows at h
  dsimp only at h
  cases hwire : req.wire with
  | none =>
    rw [hwire] at h
    obtain ⟨rfl, rfl⟩ := Prod.mk.inj h
    rw [← hwire]
    exact .noRows hfilter hwire
  | some wire =>
    rw [hwire] at h
    dsimp only at h
    split at h
    · next hnone =>
      obtain ⟨rfl, rfl⟩ := Prod.mk.inj h
      have hmissing : req.op = none ∧ wire.length ≠ 0 := by simpa using hnone
      rw [← hwire]
      exact .noOperation hfilter hwire hmissing.1 hmissing.2
    · next hsome =>
      have hop : req.op.isSome = true ∨ wire.length = 0 := by
        cases hop : req.op with
        | none => exact .inr (by simpa [hop] using hsome)
        | some op => exact .inl rfl
      split at h
      · next e hrows =>
        obtain ⟨rfl, rfl⟩ := Prod.mk.inj h
        exact .rowFails hfilter hwire hop hrows
      · next rows hrows =>
        obtain ⟨rfl, rfl⟩ := Prod.mk.inj h
        exact .rebuilt hfilter hwire hop hrows

/-- Unmarshalling changes nothing of a request but its filter and its rows. -/
theorem unmarshal_eq {req req' : EnlistRequest σ} {loader : ClassLoader σ}
    {result : Except UnmarshalError Unit} (h : req.unmarshal loader = (result, req')) :
    ∃ filter wire enlisted,
      req' = { req with filter := filter, wire := wire, enlisted := enlisted } := by
  cases unmarshals h with
  | filterFails | noRows | noOperation | rowFails | rebuilt => exact ⟨_, _, _, rfl⟩

/-- The rows of a request that is unmarshalled are those it had, or are rebuilt one by one
from its rows in wire form. -/
theorem unmarshal_takeRows {req req' : EnlistRequest σ} {loader : ClassLoader σ}
    (h : req.unmarshal loader = (.ok (), req')) :
    (req.wire = none ∧ req'.takeRows.1 = req.takeRows.1) ∨
      ∃ rows, req.wire = some rows ∧
        (splitRows rows).mapM (unmarshalRow req.keepBinary loader) = .ok req'.takeRows.1 := by
  cases unmarshals h with
  | noRows _ hwire => exact .inl ⟨hwire, rfl⟩
  | rebuilt _ hwire _ hrows => exact .inr ⟨_, hwire, hrows⟩

/-- A request in shape that is unmarshalled has one row for each key that it declared, in
order and with the same octets and partition. -/
theorem Shaped.unmarshal_keys {req req' : EnlistRequest σ} {loader : ClassLoader σ}
    (h : req.Shaped) (hreq : req.unmarshal loader = (.ok (), req')) :
    req'.takeRows.1.map (fun row => row.keyObject.onWire) =
      req.declaredKeys.map KeyObject.onWire := by
  rcases unmarshal_takeRows hreq with ⟨hwire, hrows⟩ | ⟨rows, hwire, hrows⟩
  · rw [hrows]
    simp only [takeRows, declaredKeys, hwire, List.map_map]
    rfl
  · have hkeys := mapM_unmarshalRow_keys hrows
    have hsplit := splitRows_keys (h.rows rows hwire)
    simp only [declaredKeys, hwire]
    rw [hkeys, ← hsplit, List.map_map]
    rfl

/-- Rows are split into at most one row for each key. -/
theorem length_splitRows_le (rows : WireRows σ) : (splitRows rows).length ≤ rows.keys.length := by
  cases rows with
  | keysOnly keys => exact Nat.le_of_eq (List.length_map _)
  | entries keys values => exact List.length_zipWith .. ▸ Nat.min_le_left _ _
  | invokes keys items => exact List.length_zipWith .. ▸ Nat.min_le_left _ _

/-- A request that is unmarshalled has at most one row for each key that it declared. -/
theorem unmarshal_length_le {req req' : EnlistRequest σ} {loader : ClassLoader σ}
    (hreq : req.unmarshal loader = (.ok (), req')) :
    req'.takeRows.1.length ≤ req.declaredKeys.length := by
  rcases unmarshal_takeRows hreq with ⟨hwire, hrows⟩ | ⟨rows, hwire, hrows⟩
  · rw [hrows]
    simp [takeRows, declaredKeys, hwire]
  · have hkeys := congrArg List.length (mapM_unmarshalRow_keys hrows)
    have hsplit := length_splitRows_le rows
    simp only [List.length_map] at hkeys
    simp only [declaredKeys, hwire]
    omega

end EnlistRequest

end Enlistment
