import Enlistment.Proofs.Node.Rows
import Enlistment.Proofs.Stream.Arriving
import Enlistment.Proofs.Value.Classes

/-!
# What receivers resolve

The receiver of a request resolves what it refers to: first the filter and then row by row, of a
filter first the operand and then the class, and of a row first the key and then the value, or the
arguments and then the processor. It reports the first name that it does not know, unless octets
that stand for no value, or rows without an operation, come before it.
-/

namespace Enlistment

open Wire

variable {σ : Type}

/-! ## References -/

/-- What a request refers to: an object by what it stands for, code by its name, and the operation
that rows came without. -/
inductive Reference where
  | object (content : Except ContentFault Value)
  | predicate (name : String)
  | processor (name : String)
  | operation

namespace Reference

variable {keepBinary : Bool} {loader : ClassLoader σ}

/-- Whether a loader knows what is referred to. Classes of objects do not matter in binary form. -/
def Known (keepBinary : Bool) (loader : ClassLoader σ) : Reference → Prop
  | object (.ok v) => keepBinary = true ∨ ∀ name, v.Mentions name → loader.hasClass name = true
  | object (.error _) => False
  | predicate name => (loader.predicate name).isSome = true
  | processor name => (loader.processor name).isSome = true
  | operation => False

/-- How a reference fails: with the fault of its octets, or with the first name that a loader does
not know. -/
def Fails (keepBinary : Bool) (loader : ClassLoader σ) (err : UnmarshalError) : Reference → Prop
  | object (.ok v) => keepBinary = false ∧
    ∃ missing, v.FirstMissing loader.hasClass missing ∧ err = .classNotFound missing
  | object (.error fault) => err = fault.report
  | predicate name => loader.predicate name = none ∧ err = .classNotFound name
  | processor name => loader.processor name = none ∧ err = .classNotFound name
  | operation => err = .missingOperation

/-- Looks up what is referred to. -/
def resolve (keepBinary : Bool) (loader : ClassLoader σ) : Reference → Except UnmarshalError Unit
  | object (.ok v) => v.admitted keepBinary loader.hasClass
  | object (.error fault) => .error fault.report
  | predicate name =>
    match loader.predicate name with
    | none => .error (.classNotFound name)
    | some _ => .ok ()
  | processor name =>
    match loader.processor name with
    | none => .error (.classNotFound name)
    | some _ => .ok ()
  | operation => .error .missingOperation

/-- Looks up references in order, up to the first failure. -/
def resolveAll (keepBinary : Bool) (loader : ClassLoader σ) :
    List Reference → Except UnmarshalError Unit
  | [] => .ok ()
  | r :: rest =>
    match r.resolve keepBinary loader with
    | .error e => .error e
    | .ok () => resolveAll keepBinary loader rest

/-- What is known is found. -/
theorem resolve_eq_ok_iff {r : Reference} :
    r.resolve keepBinary loader = .ok () ↔ r.Known keepBinary loader := by
  cases r with
  | object content =>
    cases content with
    | error fault => simp [resolve, Known]
    | ok v =>
      cases keepBinary <;> simp [resolve, Known, Value.admitted, Value.checkClasses_eq_ok_iff]
  | predicate name => cases h : loader.predicate name <;> simp [resolve, Known, h]
  | processor name => cases h : loader.processor name <;> simp [resolve, Known, h]
  | operation => simp [resolve, Known]

/-- What is not known fails, for the first name that is missing if octets are not at fault. -/
theorem resolve_eq_error_iff {r : Reference} {err : UnmarshalError} :
    r.resolve keepBinary loader = .error err ↔ r.Fails keepBinary loader err := by
  cases r with
  | object content =>
    cases content with
    | error fault => simp [resolve, Fails, eq_comm]
    | ok v =>
      cases keepBinary <;> simp [resolve, Fails, Value.admitted, Value.checkClasses_eq_error_iff]
  | predicate name => cases h : loader.predicate name <;> simp [resolve, Fails, h, eq_comm]
  | processor name => cases h : loader.processor name <;> simp [resolve, Fails, h, eq_comm]
  | operation => simp [resolve, Fails, eq_comm]

/-- References are looked up behind others if these are found. -/
theorem resolveAll_append (rs others : List Reference) :
    resolveAll keepBinary loader (rs ++ others) =
      match resolveAll keepBinary loader rs with
      | .error e => .error e
      | .ok () => resolveAll keepBinary loader others := by
  induction rs with
  | nil => rfl
  | cons r rest ih =>
    rw [List.cons_append, resolveAll, resolveAll, ih]
    cases r.resolve keepBinary loader <;> rfl

/-- All references are found if all are known. -/
theorem resolveAll_eq_ok_iff {rs : List Reference} :
    resolveAll keepBinary loader rs = .ok () ↔ ∀ r ∈ rs, r.Known keepBinary loader := by
  induction rs with
  | nil => simp [resolveAll]
  | cons r rest ih =>
    rw [List.forall_mem_cons, ← ih, ← resolve_eq_ok_iff, resolveAll]
    cases r.resolve keepBinary loader <;> simp

/-- Otherwise the first one that is not known fails. -/
theorem resolveAll_eq_error_iff {rs : List Reference} {err : UnmarshalError} :
    resolveAll keepBinary loader rs = .error err ↔
      ∃ before r after, rs = before ++ r :: after ∧
        (∀ earlier ∈ before, earlier.Known keepBinary loader) ∧
        r.Fails keepBinary loader err := by
  induction rs with
  | nil => simp [resolveAll]
  | cons r rest ih =>
    rw [resolveAll]
    constructor
    · intro h
      cases hr : r.resolve keepBinary loader with
      | error e =>
        rw [hr] at h
        rw [Except.error.inj h] at hr
        exact ⟨[], r, rest, rfl, List.forall_mem_nil _, resolve_eq_error_iff.mp hr⟩
      | ok done =>
        rw [hr] at h
        obtain ⟨before, other, after, rfl, hbefore, hother⟩ := ih.mp h
        exact ⟨r :: before, other, after, rfl,
          List.forall_mem_cons.mpr ⟨resolve_eq_ok_iff.mp hr, hbefore⟩, hother⟩
    · rintro ⟨before, other, after, heq, hbefore, hfails⟩
      cases before with
      | nil =>
        obtain ⟨rfl, rfl⟩ := List.cons.inj heq
        rw [resolve_eq_error_iff.mpr hfails]
      | cons first before =>
        obtain ⟨rfl, rfl⟩ := List.cons.inj heq
        obtain ⟨hfirst, hbefore⟩ := List.forall_mem_cons.mp hbefore
        rw [resolve_eq_ok_iff.mpr hfirst]
        exact ih.mpr ⟨before, other, after, rfl, hbefore, hfails⟩

end Reference

/-- What a filter refers to. -/
def Filter.references (f : Filter σ) : List Reference :=
  (f.operand.toList.map fun o => .object o.content) ++ f.className.toList.map .predicate

/-- What a row of a caller refers to. -/
def Row.references : Row → List Reference
  | key k => [.object (.ok k)]
  | entry k v => [.object (.ok k), .object (.ok v)]
  | invoke k i =>
    .object (.ok k) :: (i.args.map fun v => .object (.ok v)) ++ [.processor i.processor]

/-- What a row in binary form refers to. -/
def EnlistedRow.references : EnlistedRow σ → List Reference
  | key k => [.object k.content]
  | entry k v => [.object k.content, .object v.content]
  | invoke k i =>
    .object k.content :: (i.args.map fun o => .object o.content) ++ [.processor i.processor]

namespace EnlistRequest

/-- What rows in wire form refer to. -/
def wireReferences (op : Option Operation) (wire : WireRows σ) : List Reference :=
  if op.isNone && wire.length != 0 then [.operation]
  else (splitRows wire).flatMap EnlistedRow.references

/-- What the rows of a request refer to. They are those of the caller until they are in wire form,
and then what goes on the wire. -/
def rowReferences (req : EnlistRequest σ) : List Reference :=
  match req.pending with
  | some rows => rows.flatMap Row.references
  | none => req.onWire.wire.elim [] (wireReferences req.op)

/-- What a request refers to, in the order of its receivers. -/
def references (req : EnlistRequest σ) : List Reference :=
  req.filter.elim [] Filter.references ++ req.rowReferences

end EnlistRequest

/-! ## Objects and rows -/

section

open Reference (resolve resolveAll resolveAll_append)

variable (keepBinary : Bool) (loader : ClassLoader σ)

/-- Octets are rebuilt if and only if they stand for a value whose classes are found. -/
theorem rebuildValue_resolves (bytes : Option Bytes) :
    (rebuildValue keepBinary loader.hasClass bytes none).1 =
      (Reference.object (contentOf bytes none)).resolve keepBinary loader := by
  rw [rebuildValue_received]
  cases contentOf bytes none <;> rfl

/-- A key is rebuilt if and only if what it refers to is found. -/
theorem KeyObject.unmarshal_resolves (k : KeyObject) :
    (k.onWire.unmarshal keepBinary loader.hasClass).1 =
      (Reference.object k.onWire.content).resolve keepBinary loader :=
  rebuildValue_resolves keepBinary loader k.bytes

/-- A value is rebuilt if and only if what it refers to is found. -/
theorem ValueObject.unmarshal_resolves (o : ValueObject) :
    (o.onWire.unmarshal keepBinary loader.hasClass).1 =
      (Reference.object o.onWire.content).resolve keepBinary loader :=
  rebuildValue_resolves keepBinary loader o.bytes

/-- Arguments are looked up in order. -/
theorem unmarshalEach_resolves (args : List ValueObject) :
    (unmarshalEach (ValueObject.unmarshal keepBinary loader.hasClass)
      (args.map ValueObject.onWire)).1 =
        resolveAll keepBinary loader
          ((args.map ValueObject.onWire).map fun o => .object o.content) := by
  induction args with
  | nil => rfl
  | cons o rest ih =>
    rw [List.map_cons, List.map_cons, unmarshalEach, resolveAll,
      ← ValueObject.unmarshal_resolves keepBinary loader o, ← ih]
    rcases o.onWire.unmarshal keepBinary loader.hasClass with ⟨_ | _, o'⟩ <;> rfl

/-- The arguments of an invocation are looked up before its processor. -/
theorem InvokeValue.unmarshal_resolves (i : InvokeValue σ) :
    (i.onWire.unmarshal keepBinary loader).1 =
      resolveAll keepBinary loader
        ((i.onWire.args.map fun o => .object o.content) ++ [.processor i.processor]) := by
  rw [onWire]
  dsimp only
  rw [resolveAll_append, ← unmarshalEach_resolves keepBinary loader i.args, unmarshal]
  dsimp only
  rcases unmarshalEach (ValueObject.unmarshal keepBinary loader.hasClass)
    (i.args.map ValueObject.onWire) with ⟨_ | _, args⟩
  · rfl
  · rw [resolveAll, resolve]
    cases loader.processor i.processor <;> rfl

namespace EnlistRequest

/-- A row is rebuilt if and only if all that it refers to is found. -/
theorem unmarshalRow_resolves (row : EnlistedRow σ) :
    (unmarshalRow keepBinary loader row.onWire).map (fun _ => ()) =
      resolveAll keepBinary loader row.onWire.references := by
  cases row with
  | key k =>
    have hk := k.unmarshal_resolves keepBinary loader
    simp only [EnlistedRow.onWire, unmarshalRow, EnlistedRow.references, resolveAll, ← hk]
    rcases k.onWire.unmarshal keepBinary loader.hasClass with ⟨_ | _, k'⟩ <;> rfl
  | entry k v =>
    have hk := k.unmarshal_resolves keepBinary loader
    have hv := v.unmarshal_resolves keepBinary loader
    simp only [EnlistedRow.onWire, unmarshalRow, EnlistedRow.references, resolveAll, ← hk, ← hv]
    rcases k.onWire.unmarshal keepBinary loader.hasClass with ⟨_ | _, k'⟩
    · rfl
    · rcases v.onWire.unmarshal keepBinary loader.hasClass with ⟨_ | _, v'⟩ <;> rfl
  | invoke k i =>
    have hk := k.unmarshal_resolves keepBinary loader
    have hi := i.unmarshal_resolves keepBinary loader
    have hname : i.onWire.processor = i.processor := rfl
    simp only [EnlistedRow.onWire, unmarshalRow, EnlistedRow.references, List.cons_append,
      resolveAll, hname, ← hk, ← hi]
    rcases k.onWire.unmarshal keepBinary loader.hasClass with ⟨_ | _, k'⟩
    · rfl
    · rcases i.onWire.unmarshal keepBinary loader with ⟨_ | _, i'⟩ <;> rfl

/-- Rows are rebuilt in order, if and only if all that they refer to is found. -/
theorem mapM_unmarshalRow_resolves (rows : List (EnlistedRow σ)) :
    ((rows.map EnlistedRow.onWire).mapM (unmarshalRow keepBinary loader)).map (fun _ => ()) =
      resolveAll keepBinary loader
        ((rows.map EnlistedRow.onWire).flatMap EnlistedRow.references) := by
  induction rows with
  | nil => rfl
  | cons row rest ih =>
    rw [List.map_cons, List.mapM_cons, List.flatMap_cons, resolveAll_append,
      ← unmarshalRow_resolves keepBinary loader row, ← ih]
    cases unmarshalRow keepBinary loader row.onWire with
    | error e => rfl
    | ok rebuilt =>
      cases (rest.map EnlistedRow.onWire).mapM (unmarshalRow keepBinary loader) <;> rfl

end EnlistRequest

/-! ## Filters -/

/-- A filter is rebuilt if and only if all that it refers to is found. -/
theorem Filter.unmarshal_resolves (f : Filter σ) :
    (f.onWire.unmarshal keepBinary loader).1 =
      resolveAll keepBinary loader f.onWire.references := by
  obtain ⟨kind, operand, className, resolved⟩ := f
  cases operand with
  | none =>
    cases className with
    | none => rfl
    | some name =>
      simp only [onWire, unmarshal, references, Option.map_none, Option.toList_none,
        Option.toList_some, List.map_nil, List.map_cons, List.nil_append, resolveAll, resolve]
      cases loader.predicate name <;> rfl
  | some o =>
    have ho := o.unmarshal_resolves keepBinary loader
    simp only [onWire, unmarshal, references, Option.map_some, Option.toList_some, List.map_cons,
      List.map_nil, List.cons_append, List.nil_append, resolveAll, ← ho]
    rcases o.onWire.unmarshal keepBinary loader.hasClass with ⟨_ | _, o'⟩
    · rfl
    · cases className with
      | none => rfl
      | some name =>
        simp only [Option.toList_some, List.map_cons, List.map_nil, resolveAll, resolve]
        cases loader.predicate name <;> rfl

end

/-! ## Requests -/

namespace EnlistRequest

variable {ctx : MarshalContext} {loader : ClassLoader σ} {req sent decoded : EnlistRequest σ}

/-- A request on the wire is as it goes on the wire. -/
theorem onWire_onWire (req : EnlistRequest σ) : req.onWire.onWire = req.onWire := by
  rw [← req.ofRecord_toRecord, onWire_ofRecord]

/-- The rows of a request on the wire refer to what they have in wire form. -/
theorem rowReferences_onWire (req : EnlistRequest σ) :
    req.onWire.rowReferences = req.onWire.wire.elim [] (wireReferences req.op) := by
  have hsame := congrArg EnlistRequest.wire req.onWire_onWire
  show req.onWire.onWire.wire.elim [] (wireReferences req.op) = _
  rw [hsame]

/-- Rows that go on the wire are rebuilt if and only if they have an operation, if there are any,
and all that they refer to is found. -/
theorem rows_resolve (loader : ClassLoader σ) (req : EnlistRequest σ) (filter : Option (Filter σ)) :
    (unmarshalRows loader { req.onWire with filter := filter }).1 =
      Reference.resolveAll req.keepBinary loader req.onWire.rowReferences := by
  rw [rowReferences_onWire]
  unfold unmarshalRows onWire
  cases req.wire with
  | none => rfl
  | some wire =>
    dsimp only [Option.map_some, Option.elim_some]
    rw [wireReferences]
    split
    · rfl
    · rw [splitRows_onWire, ← mapM_unmarshalRow_resolves]
      cases ((splitRows wire).map EnlistedRow.onWire).mapM (unmarshalRow req.keepBinary loader) <;>
        rfl

/-- A request that comes from the wire is rebuilt if and only if all that it refers to is found. -/
theorem unmarshal_resolves (loader : ClassLoader σ) (req : EnlistRequest σ) :
    (req.onWire.unmarshal loader).1 =
      Reference.resolveAll req.keepBinary loader req.onWire.references := by
  have hrows := req.rows_resolve loader
  rw [references, Reference.resolveAll_append]
  cases hf : req.filter with
  | none =>
    have hnone : req.onWire.filter = none := by rw [onWire, hf, Option.map_none]
    have hsame : ({ req.onWire with filter := none } : EnlistRequest σ) = req.onWire := by
      rw [← hnone]
    have hall := hrows none
    rw [hsame] at hall
    simp only [unmarshal, unmarshalFilter, hnone, Option.elim_none, Reference.resolveAll]
    exact hall
  | some f =>
    have hsome : req.onWire.filter = some f.onWire := by rw [onWire, hf, Option.map_some]
    have hfilter := f.unmarshal_resolves req.keepBinary loader
    rcases hr : f.onWire.unmarshal req.keepBinary loader with ⟨result, rebuilt⟩
    rw [hr] at hfilter
    have hkeep : req.onWire.keepBinary = req.keepBinary := rfl
    simp only [unmarshal, unmarshalFilter, hsome, hkeep, hr, Option.elim_some, ← hfilter]
    cases result with
    | error e => rfl
    | ok done => exact hrows (some rebuilt)

/-- The form of a row refers to what the row refers to, unless a form is too long. -/
theorem form_references {row : Row} (ctx : MarshalContext) (h : ∀ v ∈ row.values, v.Short) :
    (row.form (σ := σ) ctx).onWire.references = row.references := by
  have hdecode : ∀ v : Value, v.Short → contentOf (some v.encode) none = .ok v := by
    intro v hv
    rw [contentOf, Value.decode_encode hv]
    rfl
  cases row with
  | key k =>
    have hk := hdecode k (List.forall_mem_singleton.mp h)
    exact congrArg (fun c => [Reference.object c]) hk
  | entry k v =>
    obtain ⟨hkShort, hvShort⟩ := List.forall_mem_cons.mp h
    have hk := hdecode k hkShort
    have hv := hdecode v (List.forall_mem_singleton.mp hvShort)
    show [Reference.object (contentOf (some k.encode) none),
      Reference.object (contentOf (some v.encode) none)] = _
    rw [hk, hv]
    rfl
  | invoke k i =>
    obtain ⟨hkShort, hargsShort⟩ := List.forall_mem_cons.mp h
    have hk := hdecode k hkShort
    have hargs : ((i.args.map ValueObject.complete).map ValueObject.onWire).map
        (fun o => Reference.object o.content) = i.args.map fun v => .object (.ok v) := by
      rw [List.map_map, List.map_map]
      exact List.map_congr_left fun v hv =>
        congrArg Reference.object (hdecode v (hargsShort v hv))
    show Reference.object (contentOf (some k.encode) none) ::
      ((i.args.map ValueObject.complete).map ValueObject.onWire).map
        (fun o => Reference.object o.content) ++ [Reference.processor i.processor] = _
    rw [hk, hargs]
    rfl

/-- The filter of a request refers on the wire to what it referred to before. -/
theorem filter_references (hmarshal : req.marshal ctx = .ok sent)
    (hwithin : requestLayout.Within maxWireLength (WireForm.toRecord sent)) :
    sent.onWire.filter.elim [] Filter.references = req.filter.elim [] Filter.references := by
  obtain ⟨deployment, addDeployment, wire, rfl, -⟩ := marshal_eq hmarshal
  cases hf : req.filter with
  | none => rfl
  | some f =>
    show f.marshal.onWire.references = f.references
    cases ho : f.operand with
    | none => simp only [Filter.references, Filter.marshal, Filter.onWire, ho, Option.map_none]
    | some o =>
      have hcontent : o.marshal.onWire.content = o.content := by
        refine ValueObject.content_onWire_marshal fun v hnone hv => ?_
        have hbytes : o.marshal.bytes = some v.encode := by
          obtain ⟨bytes, value⟩ := o
          obtain rfl : bytes = none := hnone
          obtain rfl : value = some v := hv
          rfl
        exact short_of_within (Nat.le_refl _) (operand_within rfl hwithin hf ho hbytes)
      simp only [Filter.references, Filter.marshal, Filter.onWire, ho, Option.map_some,
        Option.toList_some, List.map_cons, List.map_nil, hcontent]

/-- The rows of a request refer on the wire to what they referred to before. -/
theorem rowReferences_marshal (hmarshal : req.marshal ctx = .ok sent)
    (hwithin : requestLayout.Within maxWireLength (WireForm.toRecord sent)) :
    sent.onWire.rowReferences = req.rowReferences := by
  rw [rowReferences_onWire]
  obtain ⟨deployment, addDeployment, wire, rfl, hconverted⟩ := marshal_eq hmarshal
  obtain ⟨hpending, rfl⟩ | ⟨rows, wire, hpending, rfl, hconvert⟩ := hconverted
  · rw [rowReferences, hpending]
    rfl
  · rw [rowReferences, hpending]
    show wireReferences req.op wire.onWire = rows.flatMap Row.references
    have hop : (req.op.isNone && wire.onWire.length != 0) = false := by
      obtain ⟨-, -, rfl⟩ | ⟨o, ho, -, -⟩ := convertRows_eq hconvert
      · exact Bool.and_false _
      · rw [ho]
        rfl
    rw [wireReferences, hop, if_neg Bool.false_ne_true, splitRows_onWire,
      splitRows_convertRows hconvert, List.map_map, List.flatMap_map]
    refine congrArg List.flatten (List.map_congr_left fun row hrow => ?_)
    refine form_references ctx fun v hv => ?_
    exact short_of_within (Nat.le_refl _) (values_within hconvert rfl hwithin row hrow v hv)

/-- Whoever reads a request of any origin looks up what it referred to when it was marshalled. -/
theorem ArrivesAs.resolves (harrives : sent.ArrivesAs decoded)
    (hbuilt : (Message.request req).Built) (hmarshal : req.marshal ctx = .ok sent)
    (loader : ClassLoader σ) :
    (decoded.unmarshal loader).1 =
      Reference.resolveAll req.keepBinary loader req.references := by
  have hshaped : req.Shaped := hbuilt.shaped
  obtain ⟨rfl, hwithin⟩ := harrives.eq_onWire (hshaped.marshal hmarshal)
  have hkeep : sent.keepBinary = req.keepBinary := by
    obtain ⟨deployment, addDeployment, wire, rfl, -⟩ := marshal_eq hmarshal
    rfl
  have hsame : sent.onWire.references = req.references := by
    rw [references, filter_references hmarshal hwithin, rowReferences_marshal hmarshal hwithin]
    rfl
  rw [unmarshal_resolves, hsame, hkeep]

/-- Receivers resolve exactly what a request refers to. Let a request of any origin be marshalled,
be it built by its sender, or received and relayed. Whoever reads it rebuilds it if and only if its
octets stand for values, its rows have an operation if there are any, and the loader knows the class
of the filter as a predicate, every processor and, unless the request asks for the binary form,
every class that the operand of the filter, the keys, the values and the arguments mention.
Otherwise the first reference that fails is reported, in the order: operand, class of the filter,
and then row by row the key and the value, or the key, the arguments and the processor. It fails for
the first class that it misses, or for its octets if they stand for no value; rows without an
operation fail behind the filter. -/
theorem resolution_exact (hbuilt : (Message.request req).Built)
    (hmarshal : req.marshal ctx = .ok sent) (harrives : sent.ArrivesAs decoded)
    (loader : ClassLoader σ) :
    ((decoded.unmarshal loader).1 = .ok () ↔
      ∀ r ∈ req.references, r.Known req.keepBinary loader) ∧
    ∀ err, (decoded.unmarshal loader).1 = .error err ↔
      ∃ before r after, req.references = before ++ r :: after ∧
        (∀ earlier ∈ before, earlier.Known req.keepBinary loader) ∧
        r.Fails req.keepBinary loader err := by
  rw [harrives.resolves hbuilt hmarshal]
  exact ⟨Reference.resolveAll_eq_ok_iff, fun _ => Reference.resolveAll_eq_error_iff⟩

/-- An invocation is relayed, under a filter of a user class. The receiver knows the class of the
filter and the processor, and of its arguments the outer class of the second one. -/
theorem resolution_exact_of_invocation :
    let processor : EntryProcessor Unit := ⟨fun _ entry _ => ⟨.ok none, entry, ()⟩⟩
    let predicate : RowPredicate Unit := ⟨fun _ _ _ => (true, ())⟩
    let loader : ClassLoader Unit :=
      .ofRegistrations ["Order"] [("Move", processor)] [("New", predicate)]
    let ctx : MarshalContext := .ofCache 5 8
    let order : Value := .object "Order" [("id", .int 7), ("buyer", .object "Person" [])]
    let req : EnlistRequest Unit :=
      { op := some .invoke
        filter := some (.custom "New")
        pending := some [.invoke (.int 1) ⟨"Move", [.int 2, order, .object "Book" []]⟩] }
    ∃ sent relayed decoded, (Message.request req).Built ∧ req.marshal ctx = .ok sent ∧
      sent.ArrivesAs relayed ∧ relayed.marshal ctx = .ok relayed ∧ relayed.ArrivesAs decoded ∧
      (decoded.unmarshal loader).1 = .error (.classNotFound "Person") := by
  intro processor predicate loader ctx order req
  let first : EnlistRequest Unit :=
    { req with
      pending := none
      wire := some (.invokes [.ofKey ctx (.int 1)]
        [⟨"Move", [.complete (.int 2), .complete order, .complete (.object "Book" [])], none⟩]) }
  have hfilter : ∀ f, req.filter = some f → f = .custom "New" := fun f hf =>
    (Option.some.inj hf).symm
  have hbuilt : (Message.request req).Built :=
    .request req rfl fun f hf => hfilter f hf ▸ .custom "New"
  have hwhole : ∀ f, req.filter = some f → f.Whole := fun f hf =>
    Filter.whole_of_made (.inr (.inr (.inr ⟨"New", hfilter f hf⟩)))
  have hmarshal : req.marshal ctx = .ok first := rfl
  have hwithin : requestLayout.Within maxWireLength (WireForm.toRecord first) := by decide
  have harrives := arrives_of_marshal hbuilt rfl hwhole hmarshal hwithin
  have hrelayed : first.onWire.ArrivesAs first.onWire := harrives.of_same_draft rfl
  have hagain : first.onWire.marshal ctx = .ok first.onWire := rfl
  refine ⟨first, first.onWire, first.onWire, hbuilt, hmarshal, harrives, hagain, hrelayed, ?_⟩
  have hreferences : first.onWire.references = [.predicate "New", .object (.ok (.int 1)),
      .object (.ok (.int 2)), .object (.ok order), .object (.ok (.object "Book" [])),
      .processor "Move"] := by
    rfl
  have hplain : ∀ (n : Int64) name, ¬ (Value.int n).Mentions name := fun n name h => by cases h
  refine ((resolution_exact harrives.built hagain hrelayed loader).2 _).mpr
    ⟨[.predicate "New", .object (.ok (.int 1)), .object (.ok (.int 2))], .object (.ok order),
      [.object (.ok (.object "Book" [])), .processor "Move"], hreferences, ?_, ?_⟩
  · refine List.forall_mem_cons.mpr ⟨rfl, List.forall_mem_cons.mpr ⟨.inr fun name h => ?_,
      List.forall_mem_singleton.mpr (.inr fun name h => ?_)⟩⟩
    · exact absurd h (hplain 1 name)
    · exact absurd h (hplain 2 name)
  · have hearlier : ∀ earlier ∈ [("id", Value.int 7)], ∀ known, earlier.2.Mentions known →
        loader.hasClass known = true :=
      List.forall_mem_singleton.mpr fun name h => absurd h (hplain 7 name)
    exact ⟨rfl, "Person", .nested (by decide) hearlier (.own [] (by decide)), rfl⟩

/-- Two requests are relayed that no receiver can rebuild, whatever its loader knows: the operand of
the filter has octets that stand for no value, and rows have no operation. -/
theorem failures_besides_names :
    let ctx : MarshalContext := .ofCache 5 8
    (∃ req decoded : EnlistRequest Unit, (Message.request req).Built ∧
      req.marshal ctx = .ok req ∧ req.ArrivesAs decoded ∧
      ∀ loader : ClassLoader Unit,
        (decoded.unmarshal loader).1 = .error (.decode (.unknownVariant 9))) ∧
    ∃ req decoded : EnlistRequest Unit, (Message.request req).Built ∧
      req.marshal ctx = .ok req ∧ req.ArrivesAs decoded ∧
      ∀ loader : ClassLoader Unit, (decoded.unmarshal loader).1 = .error .missingOperation := by
  intro ctx
  constructor
  · let req : EnlistRequest Unit :=
      { op := some .lock
        filter := some { kind := .containsValue, operand := some (.ofBytes [9]) }
        wire := some (.keysOnly []) }
    have hfilter : ∀ f, req.filter = some f →
        f = { kind := .containsValue, operand := some (.ofBytes [9]) } := fun f hf =>
      (Option.some.inj hf).symm
    have hshaped : req.Shaped := by
      refine ⟨fun f hf => ?_, fun wire hwire => ?_⟩
      · rw [hfilter f hf]
        exact Filter.shaped_of_kind (.inr (.inr (.inl ⟨rfl, rfl⟩)))
      · obtain rfl := Option.some.inj hwire
        intro op hop
        obtain rfl := Option.some.inj hop
        rfl
    have hfilled : req.Filled := by
      refine ⟨rfl, fun wire hwire => ?_, fun f o hf ho => ?_⟩
      · obtain rfl := Option.some.inj hwire
        exact List.forall_mem_nil _
      · rw [hfilter f hf] at ho
        obtain rfl := Option.some.inj ho
        rfl
    have hwithin : requestLayout.Within maxWireLength (WireForm.toRecord req) := by decide
    have harrives : req.ArrivesAs req := hfilled.arrives hshaped hwithin
    exact ⟨req, req, harrives.built, rfl, harrives, fun loader => rfl⟩
  · let req : EnlistRequest Unit := { wire := some (.keysOnly [⟨0, some [2, 2], none⟩]) }
    have hshaped : req.Shaped := by
      refine ⟨(fun f hf => by cases hf), fun wire hwire => ?_⟩
      obtain rfl := Option.some.inj hwire
      intro op hop
      cases hop
    have hfilled : req.Filled := by
      refine ⟨rfl, fun wire hwire => ?_, (fun f o hf => by cases hf)⟩
      obtain rfl := Option.some.inj hwire
      exact List.forall_mem_singleton.mpr rfl
    have hwithin : requestLayout.Within maxWireLength (WireForm.toRecord req) := by decide
    have harrives : req.ArrivesAs req := hfilled.arrives hshaped hwithin
    exact ⟨req, req, harrives.built, rfl, harrives, fun loader => rfl⟩

end EnlistRequest

end Enlistment
