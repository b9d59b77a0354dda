import Enlistment.Proofs.Stream.Resolution

/-!
# Deployment info

A request whose rows and filter refer to user classes is flagged when they are brought into wire
form, if the settings of its sender have deployment info. So a receiver misses no class of a request
that is not flagged, but for what is in binary form already, which is not looked at again.
-/

namespace Enlistment

open Wire

variable {σ : Type}

/-! ## What requires deployment -/

/-- A value that belongs to no class mentions none. -/
theorem Value.not_mentions_of_not_isObject {v : Value} {name : String} (h : v.isObject = false) :
    ¬ v.Mentions name := by
  intro hname
  cases hname <;> cases h

/-- Whether a reference names a user class or code. -/
def Reference.Names (name : String) : Reference → Prop
  | object (.ok v) => v.Mentions name
  | predicate found | processor found => found = name
  | object (.error _) | operation => False

/-- A name that is not found is one that is referred to. -/
theorem Reference.names_of_fails {keepBinary : Bool} {loader : ClassLoader σ} {r : Reference}
    {name : String} (h : r.Fails keepBinary loader (.classNotFound name)) : r.Names name := by
  cases r with
  | object content =>
    cases content with
    | error fault => cases fault <;> cases h
    | ok v =>
      obtain ⟨-, missing, hmissing, hname⟩ := h
      rw [UnmarshalError.classNotFound.inj hname]
      exact hmissing.mentions
  | predicate found => exact (UnmarshalError.classNotFound.inj h.2).symm
  | processor found => exact (UnmarshalError.classNotFound.inj h.2).symm
  | operation => cases h

/-- Rows that require no deployment name neither classes nor code. -/
theorem Row.not_names_of_not_requiresDeployment {op : Operation} {row : Row} {r : Reference}
    {name : String} (hfits : row.Fits op) (hop : op.isInvoke = false)
    (h : row.requiresDeployment = false) (hr : r ∈ row.references) : ¬ r.Names name := by
  cases row with
  | key k =>
    obtain rfl := List.mem_singleton.mp hr
    exact Value.not_mentions_of_not_isObject h
  | entry k v =>
    obtain ⟨hk, hv⟩ := Bool.or_eq_false_iff.mp h
    rcases List.mem_cons.mp hr with rfl | hr
    · exact Value.not_mentions_of_not_isObject hk
    · obtain rfl := List.mem_singleton.mp hr
      exact Value.not_mentions_of_not_isObject hv
  | invoke k i => cases hop.symm.trans hfits

/-- The value of an object is what it stands for if it agrees with its octets, unless these are too
long. -/
theorem ValueObject.Agrees.content {o : ValueObject} {v : Value} (h : o.Agrees)
    (hv : o.value = some v) (hshort : o.bytes = some v.encode → v.Short) : o.content = .ok v := by
  obtain ⟨_ | bs, value⟩ := o
  all_goals obtain rfl : value = some v := hv
  · rfl
  · show (Value.decode bs).mapError _ = .ok v
    obtain rfl | hdecode := h bs v rfl rfl
    · rw [Value.decode_encode (hshort rfl)]
      rfl
    · rw [hdecode]
      rfl

/-- Bringing a filter into wire form twice is the same as once. -/
theorem Filter.marshal_marshal (f : Filter σ) : f.marshal.marshal = f.marshal := by
  have hobject : ∀ o : ValueObject, o.marshal.marshal = o.marshal := by
    intro o
    obtain ⟨_ | bs, _ | v⟩ := o <;> rfl
  have hoperand : (f.operand.map ValueObject.marshal).map ValueObject.marshal =
      f.operand.map ValueObject.marshal := by
    rw [Option.map_map]
    exact Option.map_congr fun o _ => hobject o
  simp only [marshal, hoperand]

namespace EnlistRequest

variable {ctx : MarshalContext} {req sent : EnlistRequest σ}

/-- Whether rows that are still to be converted, or the filter, refer to user classes. -/
def requiresDeployment (req : EnlistRequest σ) : Bool :=
  req.pending.any (rowsRequireDeployment req.op) || req.filter.any Filter.requiresDeployment

/-- Marshalling flags a request if it refers to user classes and there is deployment info, and adds
the info to a flagged request that has none. -/
theorem marshal_flags (h : req.marshal ctx = .ok sent) :
    sent.addDeployment =
        (req.addDeployment || (req.requiresDeployment && ctx.deployment.isSome)) ∧
      sent.base.deployment =
        if sent.addDeployment then req.base.deployment.or ctx.deployment
        else req.base.deployment := by
  obtain ⟨converted, rfl, hconverted⟩ := marshal_cases h
  rw [marshalFilter_eq, attachDeployment_eq]
  obtain ⟨hpending, rfl⟩ | ⟨rows, wire, hpending, -, rfl⟩ := hconverted
  · refine ⟨?_, rfl⟩
    rw [requiresDeployment, hpending]
    rfl
  · refine ⟨?_, rfl⟩
    rw [requiresDeployment, hpending, Option.any_some, Bool.and_or_distrib_right, ← Bool.or_assoc]

/-- Names that marshalling does not look for. -/
inductive Overlooked (req : EnlistRequest σ) (name : String) : Prop
  /-- Rows that are in wire form already name it. -/
  | rows {wire : WireRows σ} {r : Reference} (hpending : req.pending = none)
      (hwire : req.wire = some wire) (hr : r ∈ wireReferences req.op wire.onWire)
      (hname : r.Names name)
  /-- The operand of the filter mentions it, and only its octets are known. -/
  | operand {f : Filter σ} {o : ValueObject} {v : Value} (hf : req.filter = some f)
      (ho : f.operand = some o) (hvalue : o.value = none) (hv : o.content = .ok v)
      (hname : v.Mentions name)
  /-- It is the class of a filter that decides without its class. -/
  | className {f : Filter σ} (hf : req.filter = some f) (hkind : f.kind ≠ .custom)
      (hname : f.className = some name)

/-- Nothing is overlooked in a request whose rows are not in wire form, with a filter that was
made. -/
theorem not_overlooked {name : String} (hwire : req.wire = none)
    (hfilter : ∀ f, req.filter = some f → f = .hasValue ∨ f = .noValue ∨
      (∃ v, f = .containsValue v) ∨ ∃ className, f = .custom className) :
    ¬ req.Overlooked name := by
  rintro (⟨-, hrows, -, -⟩ | ⟨hf, ho, hvalue, -, -⟩ | ⟨hf, hkind, hname⟩)
  · cases hwire.symm.trans hrows
  · obtain rfl | rfl | ⟨v, rfl⟩ | ⟨className, rfl⟩ := hfilter _ hf
    · cases ho
    · cases ho
    · obtain rfl := Option.some.inj ho
      cases hvalue
    · cases ho
  · obtain rfl | rfl | ⟨v, rfl⟩ | ⟨className, rfl⟩ := hfilter _ hf
    · cases hname
    · cases hname
    · cases hname
    · exact hkind rfl

/-- A filter that requires no deployment names nothing but what is overlooked. -/
theorem overlooked_of_filter {f : Filter σ} {r : Reference} {name : String}
    (hbuilt : (Message.request req).Built) (h : req.marshal ctx = .ok sent)
    (hwithin : requestLayout.Within maxWireLength (WireForm.toRecord sent))
    (hf : req.filter = some f) (hplain : f.requiresDeployment = false) (hr : r ∈ f.references)
    (hname : r.Names name) : req.Overlooked name := by
  obtain ⟨hcustom, hoperand⟩ := Bool.or_eq_false_iff.mp hplain
  have hkind : f.kind ≠ .custom := by simpa using hcustom
  rcases List.mem_append.mp hr with hobject | hclass
  · obtain ⟨o, ho, rfl⟩ := List.mem_map.mp hobject
    rw [Option.mem_toList] at ho
    cases hcontent : o.content with
    | error fault =>
      rw [hcontent] at hname
      cases hname
    | ok v =>
      rw [hcontent] at hname
      cases hvalue : o.value with
      | none => exact .operand hf ho hvalue hcontent hname
      | some known =>
        have hagrees : o.Agrees := hbuilt.agrees f hf o ho
        have hsame : o.content = .ok known := by
          refine hagrees.content hvalue fun hbytes => ?_
          have hmarshal : o.marshal.bytes = some known.encode := by
            obtain ⟨bytes, value⟩ := o
            obtain rfl : bytes = some known.encode := hbytes
            rfl
          obtain ⟨deployment, addDeployment, wire, rfl, -⟩ := marshal_eq h
          exact short_of_within (Nat.le_refl _) (operand_within rfl hwithin hf ho hmarshal)
        obtain rfl := Except.ok.inj (hcontent.symm.trans hsame)
        rw [Filter.operandValue, ho, Option.bind_some, hvalue, Option.any_some] at hoperand
        exact absurd hname (Value.not_mentions_of_not_isObject hoperand)
  · obtain ⟨className, hclassName, rfl⟩ := List.mem_map.mp hclass
    rw [Option.mem_toList] at hclassName
    obtain rfl : className = name := hname
    exact .className hf hkind hclassName

/-- A request that requires no deployment names nothing but what is overlooked. -/
theorem overlooked_of_references {r : Reference} {name : String}
    (hbuilt : (Message.request req).Built) (h : req.marshal ctx = .ok sent)
    (hwithin : requestLayout.Within maxWireLength (WireForm.toRecord sent))
    (hplain : req.requiresDeployment = false) (hr : r ∈ req.references) (hname : r.Names name) :
    req.Overlooked name := by
  obtain ⟨hrows, hfilter⟩ := Bool.or_eq_false_iff.mp hplain
  rcases List.mem_append.mp hr with hr | hr
  · cases hf : req.filter with
    | none =>
      rw [hf] at hr
      cases hr
    | some f =>
      rw [hf] at hr hfilter
      exact overlooked_of_filter hbuilt h hwithin hf hfilter hr hname
  · obtain ⟨-, -, -, -, ⟨hnone, -⟩ | ⟨rows, wire, hpending, -, hconvert⟩⟩ := marshal_eq h
    · rw [rowReferences, hnone] at hr
      cases hwire : req.wire with
      | none =>
        rw [onWire, hwire] at hr
        cases hr
      | some wire =>
        rw [onWire, hwire] at hr
        exact .rows hnone hwire hr hname
    · rw [hpending] at hrows
      obtain ⟨hop, hall⟩ := Bool.or_eq_false_iff.mp hrows
      rw [rowReferences, hpending] at hr
      obtain ⟨row, hrow, hr⟩ := List.mem_flatMap.mp hr
      have hrow' : row.requiresDeployment = false :=
        eq_false_of_ne_true (List.any_eq_false.mp hall row hrow)
      obtain ⟨-, rfl, -⟩ | ⟨o, ho, hfits, -⟩ := convertRows_eq hconvert
      · cases hrow
      · rw [ho] at hop
        exact absurd hname
          (Row.not_names_of_not_requiresDeployment (hfits row hrow) hop hrow' hr)

/-- A request that was marshalled is not changed by marshalling it again, unless there was no
deployment info and now there is. -/
theorem marshal_marshalled (h : req.marshal ctx = .ok sent) {again : MarshalContext}
    (hagain : again.deployment.isSome = true → ctx.deployment.isSome = true) :
    sent.marshal again = .ok sent := by
  obtain ⟨hflag, hinfo⟩ := marshal_flags h
  obtain ⟨deployment, addDeployment, wire, hsent, -⟩ := marshal_eq h
  have hpending : sent.pending = none := by rw [hsent]
  have hfilter : sent.filter = req.filter.map Filter.marshal := by rw [hsent]
  have hfiltered : sent.marshalFilter again = sent := by
    have hoperand : sent.filter.map Filter.marshal = sent.filter := by
      rw [hfilter, Option.map_map]
      exact Option.map_congr fun f _ => f.marshal_marshal
    have hflagged : (sent.addDeployment ||
        (sent.filter.any Filter.requiresDeployment && again.deployment.isSome)) =
          sent.addDeployment := by
      rw [Bool.or_eq_left_iff_imp, Bool.and_eq_true]
      rintro ⟨hrequires, hdeploys⟩
      rw [hfilter, Option.any_map, funext Filter.requiresDeployment_marshal] at hrequires
      rw [hflag, requiresDeployment, hrequires, hagain hdeploys, Bool.or_true, Bool.and_self,
        Bool.or_true]
    rw [marshalFilter_eq, hoperand, hflagged]
  have hattached : sent.attachDeployment again = sent := by
    have hdeployment : (if sent.addDeployment then sent.base.deployment.or again.deployment
        else sent.base.deployment) = sent.base.deployment := by
      split
      · next hset =>
        rw [if_pos hset] at hinfo
        cases hfound : sent.base.deployment with
        | some info => rfl
        | none =>
          rw [hfound] at hinfo
          obtain ⟨-, hnone⟩ := Option.or_eq_none_iff.mp hinfo.symm
          rw [Option.none_or, ← Option.not_isSome_iff_eq_none]
          exact fun hdeploys => by simpa [hnone] using hagain hdeploys
      · rfl
    rw [attachDeployment_eq, hdeployment]
  simp only [marshal, marshalRows, hpending, Except.map, hfiltered, hattached]

/-- Deployment info is attached whenever it could be needed. Let a request be marshalled. If there
is deployment info, then it is flagged if and only if it has deployment info, provided that it had
no info without a flag before. If there is none, then it stays without flag and info. All receivers
see this flag and this info. Marshalling once more changes nothing, unless there was no deployment
info and now there is.

If there is deployment info and the flag is clear, then receivers miss no name but those that are
overlooked: in rows that are in wire form already, in an operand of which only the octets are known,
or the class of a filter that decides without it. So they miss none of a request whose rows are not
in wire form, under a filter that was made and not received. -/
theorem marshal_attaches_deployment (h : req.marshal ctx = .ok sent) :
    (ctx.deployment.isSome = true →
      (req.base.deployment.isSome = true → req.addDeployment = true) →
        (sent.addDeployment = true ↔ sent.base.deployment.isSome = true)) ∧
    (ctx.deployment = none → req.addDeployment = false → req.base.deployment = none →
      sent.addDeployment = false ∧ sent.base.deployment = none) ∧
    ((Message.request req).Built → ∀ decoded, sent.ArrivesAs decoded →
      decoded.addDeployment = sent.addDeployment ∧
      decoded.base.deployment = sent.base.deployment ∧
      (ctx.deployment.isSome = true → decoded.addDeployment = false →
        ∀ (loader : ClassLoader σ) name,
          ((decoded.unmarshal loader).1 = .error (.classNotFound name) → req.Overlooked name) ∧
          (req.wire = none → (∀ f, req.filter = some f → f = .hasValue ∨ f = .noValue ∨
            (∃ v, f = .containsValue v) ∨ ∃ className, f = .custom className) →
              (decoded.unmarshal loader).1 ≠ .error (.classNotFound name)))) ∧
    ∀ again : MarshalContext, (again.deployment.isSome = true → ctx.deployment.isSome = true) →
      sent.marshal again = .ok sent := by
  obtain ⟨hflag, hinfo⟩ := marshal_flags h
  refine ⟨fun hdeploys hbefore => ?_, fun hnone hclear hbare => ?_,
    fun hbuilt decoded harrives => ?_, fun again => marshal_marshalled h⟩
  · cases hsent : sent.addDeployment with
    | true =>
      rw [hsent, if_pos rfl] at hinfo
      rw [hinfo, Option.isSome_or, hdeploys, Bool.or_true]
    | false =>
      rw [hsent, if_neg Bool.false_ne_true] at hinfo
      have hunflagged : req.addDeployment = false := (Bool.or_eq_false_iff.mp (hflag ▸ hsent)).1
      rw [hinfo]
      exact ⟨fun hfalse => (Bool.false_ne_true hfalse).elim,
        fun hattached => hunflagged.symm.trans (hbefore hattached)⟩
  · rw [hclear, hnone, Option.isSome_none, Bool.and_false, Bool.or_false] at hflag
    rw [hflag, if_neg Bool.false_ne_true, hbare] at hinfo
    exact ⟨hflag, hinfo⟩
  · have hshaped : req.Shaped := hbuilt.shaped
    obtain ⟨hdecoded, hwithin⟩ := harrives.eq_onWire (hshaped.marshal h)
    have hsame : decoded.addDeployment = sent.addDeployment ∧
        decoded.base.deployment = sent.base.deployment := by
      rw [hdecoded]
      exact ⟨rfl, rfl⟩
    refine ⟨hsame.1, hsame.2, fun hdeploys hclear loader name => ?_⟩
    have hplain : req.requiresDeployment = false := by
      rw [hsame.1] at hclear
      have hneeds := (Bool.or_eq_false_iff.mp (hflag.symm.trans hclear)).2
      rwa [hdeploys, Bool.and_true] at hneeds
    have hmisses : (decoded.unmarshal loader).1 = .error (.classNotFound name) →
        req.Overlooked name := by
      intro herror
      rw [harrives.resolves hbuilt h] at herror
      obtain ⟨before, r, after, hall, -, hfails⟩ := Reference.resolveAll_eq_error_iff.mp herror
      have hr : r ∈ req.references := by simp [hall]
      exact overlooked_of_references hbuilt h hwithin hplain hr (Reference.names_of_fails hfails)
    exact ⟨hmisses, fun hwire hfilter herror => not_overlooked hwire hfilter (hmisses herror)⟩

/-- An entry with a number is sent with settings that have deployment info. -/
theorem marshal_attaches_nothing :
    let info : DeploymentInfo := ⟨7, .shared, "1"⟩
    let settings : MarshalContext := { cacheId := 5, partitions := 8, deployment := some info }
    let req : EnlistRequest Unit :=
      { op := some .upsert, pending := some [.entry (.int 1) (.int 2)] }
    ∃ sent decoded, (Message.request req).Built ∧ req.marshal settings = .ok sent ∧
      sent.marshal settings = .ok sent ∧ sent.ArrivesAs decoded ∧ decoded.base.deployment = none ∧
      ∀ (loader : ClassLoader Unit) name,
        (decoded.unmarshal loader).1 ≠ .error (.classNotFound name) := by
  intro info settings req
  let sent : EnlistRequest Unit :=
    { op := some .upsert
      wire := some (.entries [.ofKey settings (.int 1)] [.complete (.int 2)]) }
  have hbuilt : (Message.request req).Built := .request req rfl fun f hf => by cases hf
  have hmarshal : req.marshal settings = .ok sent := rfl
  have harrives : sent.ArrivesAs sent.onWire :=
    arrives_of_marshal hbuilt rfl (fun f hf => by cases hf) hmarshal
      (within_upsert _ (by decide) (by decide))
  obtain ⟨-, -, hreceivers, hagain⟩ := marshal_attaches_deployment hmarshal
  obtain ⟨-, -, hmisses⟩ := hreceivers hbuilt _ harrives
  exact ⟨sent, sent.onWire, hbuilt, hmarshal, hagain settings id, harrives, rfl,
    fun loader name => (hmisses rfl rfl loader name).2 rfl fun f hf => (by cases hf)⟩

/-- A request that is marshalled with deployment info and not flagged, and whose receiver misses a
name. -/
def GoesUnflagged (settings : MarshalContext) (req : EnlistRequest Unit) (name : String) : Prop :=
  (Message.request req).Built ∧ ∃ sent decoded, req.marshal settings = .ok sent ∧
    sent.ArrivesAs decoded ∧ decoded.addDeployment = false ∧
    (decoded.unmarshal (.ofRegistrations [] [] [])).1 = .error (.classNotFound name)

/-- A filter from the wire has a name that its kind does not ask for. A number is upserted under it
with deployment info. -/
theorem goesUnflagged_under {f : Filter Unit} {settings : MarshalContext} {name : String}
    (hshaped : f.Shaped) (hfilled : ∀ o, f.operand = some o → o.bytes.isSome = true)
    (hwithin : filterLayout.Within maxWireLength (WireForm.toRecord f))
    (hwire : f.onWire = f) (hmarshal : f.marshal = f) (hplain : f.requiresDeployment = false)
    (hmisses : (f.unmarshal false (.ofRegistrations [] [] [])).1 =
      .error (.classNotFound name)) :
    GoesUnflagged settings
      { op := some .upsert, filter := some f, pending := some [.entry (.int 1) (.int 2)] }
      name := by
  let req : EnlistRequest Unit :=
    { op := some .upsert, filter := some f, pending := some [.entry (.int 1) (.int 2)] }
  let sent : EnlistRequest Unit :=
    { op := some .upsert
      filter := some f
      wire := some (.entries [.ofKey settings (.int 1)] [.complete (.int 2)]) }
  have hf : (Message.filter f).Built := by
    have hlegible : (Message.filter f).toDraft.Legible [.filter] maxWireLength :=
      ⟨List.mem_singleton_self _, hshaped.sound_toRecord, hwithin, hwithin⟩
    have hbuilt := Decoder.built_of_legible (σ := Unit) hlegible
    rwa [Message.ofDraft_toDraft, Message.onWire, hwire] at hbuilt
  have hbuilt : (Message.request req).Built := by
    refine .request req rfl fun f' hf' => ?_
    obtain rfl := Option.some.inj hf'
    exact hf
  have hsent : req.marshal settings = .ok sent := by
    have hrows : req.marshalRows settings = .ok sent := rfl
    simp [marshal, hrows, Except.map, marshalFilter_eq, attachDeployment_eq, sent, hmarshal, hplain]
  have hsentFilled : sent.Filled := by
    refine ⟨rfl, fun wire hwire => ?_, fun f' o hf' ho => ?_⟩
    · obtain rfl := Option.some.inj hwire
      exact ⟨List.forall_mem_singleton.mpr rfl, List.forall_mem_singleton.mpr rfl⟩
    · obtain rfl := Option.some.inj hf'
      exact hfilled o ho
  have hreqShaped : req.Shaped := hbuilt.shaped
  have hsentWithin : requestLayout.Within maxWireLength (WireForm.toRecord sent) := by
    have hone : 1 ≤ maxWireLength := by decide
    simp [sent, WireForm.toRecord, requestLayout, topologyLayout, lockLayout, keyLayout,
      valueLayout, baseFields, MessageBase.toSlots, WireRows.toSlots, WireRows.keys,
      KeyObject.ofKey, ValueObject.complete, Layout.plain, Layout.Within, Fields.Within,
      Field.Within, hone]
    exact ⟨hwithin, by decide, by decide⟩
  refine ⟨hbuilt, sent, sent.onWire, hsent,
    hsentFilled.arrives (hreqShaped.marshal hsent) hsentWithin, rfl, ?_⟩
  have hfilter : sent.onWire.filter = some f := congrArg some hwire
  rcases hr : f.unmarshal false (.ofRegistrations [] [] []) with ⟨result, rebuilt⟩
  rw [hr] at hmisses
  obtain rfl : result = .error (.classNotFound name) := hmisses
  have hkeep : sent.onWire.keepBinary = false := rfl
  simp only [EnlistRequest.unmarshal, unmarshalFilter, hfilter, hkeep, hr]


/-- What marshalling does not put right, or does not look at. A request comes from the wire with
deployment info and without the flag, and stays so. One that is flagged stays so where there is no
deployment info. Rows with an object are converted without deployment info and relayed with it. A
number is upserted under a filter whose operand was received as the octets of an object, and under
one that was received with a class that it does not ask. -/
theorem deployment_not_always_attached :
    let info : DeploymentInfo := ⟨7, .shared, "1"⟩
    let settings : MarshalContext := .ofCache 5 8
    let deploying : MarshalContext := { settings with deployment := some info }
    let person : Value := .object "Person" []
    let upsert (f : Filter Unit) : EnlistRequest Unit :=
      { op := some .upsert, filter := some f, pending := some [.entry (.int 1) (.int 2)] }
    (∃ req : EnlistRequest Unit, (Message.request req).Built ∧ req.marshal deploying = .ok req ∧
      req.addDeployment = false ∧ req.base.deployment = some info) ∧
    (∃ req : EnlistRequest Unit, (Message.request req).Built ∧ req.marshal settings = .ok req ∧
      req.addDeployment = true ∧ req.base.deployment = some info) ∧
    (∃ req converted relayed : EnlistRequest Unit, (Message.request req).Built ∧
      req.marshal settings = .ok converted ∧ converted.ArrivesAs relayed ∧
      GoesUnflagged deploying relayed "Person") ∧
    GoesUnflagged deploying
      (upsert { kind := .containsValue, operand := some (.ofBytes person.encode) }) "Person" ∧
    GoesUnflagged deploying (upsert { kind := .hasValue, className := some "Adults" })
      "Adults" := by
  intro info settings deploying person upsert
  refine ⟨?_, ?_, ?_, ?_, ?_⟩
  · let req : EnlistRequest Unit := { base := { deployment := some info } }
    have hshaped : req.Shaped := ⟨fun f hf => (by cases hf), fun wire hwire => (by cases hwire)⟩
    have hfilled : req.Filled :=
      ⟨rfl, fun wire hwire => (by cases hwire), fun f o hf => (by cases hf)⟩
    have hwithin : requestLayout.Within maxWireLength (WireForm.toRecord req) := by decide
    have harrives : req.ArrivesAs req := hfilled.arrives hshaped hwithin
    exact ⟨req, harrives.built, rfl, rfl, rfl⟩
  · let req : EnlistRequest Unit := { op := some .upsert, pending := some [.entry (.int 1) person] }
    have hbuilt : (Message.request req).Built := .request req rfl fun f hf => (by cases hf)
    have hmarshal : (Message.request req).marshal deploying = .ok (.request
        { req with
          base := { req.base with deployment := some info }
          addDeployment := true
          pending := none
          wire := some (.entries [.ofKey deploying (.int 1)] [.complete person]) }) := rfl
    exact ⟨_, hbuilt.marshal hmarshal, rfl, rfl, rfl⟩
  · let req : EnlistRequest Unit := { op := some .upsert, pending := some [.entry (.int 1) person] }
    let converted : EnlistRequest Unit :=
      { op := some .upsert
        wire := some (.entries [.ofKey settings (.int 1)] [.complete person]) }
    have hbuilt : (Message.request req).Built := .request req rfl fun f hf => (by cases hf)
    have hmarshal : req.marshal settings = .ok converted := rfl
    have harrives : converted.ArrivesAs converted.onWire :=
      arrives_of_marshal hbuilt rfl (fun f hf => (by cases hf)) hmarshal
        (within_upsert _ (by decide) (by decide))
    have hrelayed : converted.onWire.ArrivesAs converted.onWire := harrives.of_same_draft rfl
    exact ⟨req, converted, converted.onWire, hbuilt, hmarshal, harrives, harrives.built,
      converted.onWire, converted.onWire, rfl, hrelayed, rfl, rfl⟩
  · refine goesUnflagged_under (Filter.shaped_of_kind (.inr (.inr (.inl ⟨rfl, rfl⟩))))
      (fun o ho => ?_) ?_ rfl rfl rfl rfl
    · obtain rfl := Option.some.inj ho
      rfl
    · decide
  · refine goesUnflagged_under (Filter.shaped_of_kind (.inl rfl)) (fun o ho => by cases ho) ?_ rfl
      rfl rfl rfl
    decide

end EnlistRequest

end Enlistment
