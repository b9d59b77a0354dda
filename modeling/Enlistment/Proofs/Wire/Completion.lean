import Enlistment.Proofs.Wire.Emission
import Enlistment.Proofs.Wire.MessageContinuation

/-!
# Writing to the end

A message that is ready with all the messages in it, and whose lengths fit, is completed by a
call with as much room as its encoding has octets. And a call with the room of the least buffer
comes to an end or emits something, so a message is completed through any such buffers.
-/

namespace Enlistment.Wire

/-! ## Enough room -/

mutual
/-- A message that keeps to a limit keeps to a higher one. -/
theorem Layout.Within.mono {limit limit' : Nat} (h : limit ≤ limit') : {R : Type} →
    {layout : Layout R} → {message : R} → layout.Within limit message →
    layout.Within limit' message
  | _, .message _ fields _, message, hwithin => by
    have hfields : fields.Within limit message.slots := hwithin
    exact hfields.mono h
/-- Fields that keep to a limit keep to a higher one. -/
theorem Fields.Within.mono {limit limit' : Nat} (h : limit ≤ limit') : {S : Type} →
    {fields : Fields S} → {slots : S} → fields.Within limit slots → fields.Within limit' slots
  | _, .nil, _, _ => trivial
  | _, .cons field rest, slots, hwithin => by
    obtain ⟨hfield, hrest⟩ := hwithin
    exact ⟨Field.Within.mono h hfield, Fields.Within.mono h hrest⟩
/-- A field that keeps to a limit keeps to a higher one. -/
theorem Field.Within.mono {limit limit' : Nat} (h : limit ≤ limit') : {A : Type} →
    {field : Field A} → {slot : A} → field.Within limit slot → field.Within limit' slot
  | _, .flag, _, _ => trivial
  | _, .ordinal _ _ _ _, _, _ => trivial
  | _, .int32, _, _ => trivial
  | _, .int64, _, _ => trivial
  | _, .uint128, _, _ => trivial
  | _, .bytes, _, hwithin => fun bs hbs => Nat.le_trans (hwithin bs hbs) h
  | _, .text _, _, hwithin => fun s hs => Nat.le_trans (hwithin s hs) h
  | _, .longs, _, hwithin => Nat.le_trans hwithin h
  | _, .optional _, _, hwithin => fun message hmessage =>
    Layout.Within.mono h (hwithin message hmessage)
  | _, .required _ layout, slot, hwithin => by
    have hnested : layout.Within limit slot := hwithin
    exact hnested.mono h
  | _, .array _, _, hwithin => fun items hitems =>
    ⟨Nat.le_trans (hwithin items hitems).1 h,
      fun item hitem => Layout.Within.mono h ((hwithin items hitems).2 item hitem)⟩
  | _, .batch _, _, hwithin =>
    ⟨Nat.le_trans hwithin.1 h, fun item hitem => Layout.Within.mono h (hwithin.2 item hitem)⟩
  | _, .keys _, _, hwithin => fun items hitems =>
    ⟨Nat.le_trans (hwithin items hitems).1 h,
      fun item hitem => Layout.Within.mono h ((hwithin items hitems).2 item hitem)⟩
  | _, .values _ _ _, _, hwithin =>
    ⟨fun items hitems => ⟨Nat.le_trans (hwithin.1 items hitems).1 h,
        fun item hitem => Layout.Within.mono h ((hwithin.1 items hitems).2 item hitem)⟩,
      fun items hitems => ⟨Nat.le_trans (hwithin.2 items hitems).1 h,
        fun item hitem => Layout.Within.mono h ((hwithin.2 items hitems).2 item hitem)⟩⟩
end

mutual
/-- Whether every field of a message, and of the messages in it, may be written. -/
def Layout.Prepared : {R : Type} → Layout R → R → Prop
  | _, .message _ fields _, message => fields.Prepared message.slots
/-- Whether fields may be written, with the messages in them. -/
def Fields.Prepared : {S : Type} → Fields S → S → Prop
  | _, .nil, _ => True
  | _, .cons field rest, slots =>
    field.ready slots.1 = true ∧ field.Prepared slots.1 ∧ rest.Prepared slots.2
/-- Whether the messages in a field may be written. -/
def Field.Prepared : {A : Type} → Field A → A → Prop
  | _, .flag, _ => True
  | _, .ordinal _ _ _ _, _ => True
  | _, .int32, _ => True
  | _, .int64, _ => True
  | _, .uint128, _ => True
  | _, .bytes, _ => True
  | _, .text _, _ => True
  | _, .longs, _ => True
  | _, .optional layout, slot => ∀ message, slot = some message → layout.Prepared message
  | _, .required _ layout, slot => layout.Prepared slot
  | _, .array layout, slot => ∀ items, slot = some items → ∀ item ∈ items, layout.Prepared item
  | _, .batch layout, slot => ∀ item ∈ slot.settled, layout.Prepared item
  | _, .keys layout, slot =>
    ∀ items, slot.settled = some items → ∀ item ∈ items, layout.Prepared item
  | _, .values _ value invocation, slot =>
    (∀ items, slot.settled = some (.inl items) → ∀ item ∈ items, value.Prepared item) ∧
    (∀ items, slot.settled = some (.inr items) → ∀ item ∈ items, invocation.Prepared item)
end

/-- Prepared fields are ready. -/
theorem Fields.Prepared.ready : {S : Type} → {fields : Fields S} → {slots : S} →
    fields.Prepared slots → fields.ready slots = true
  | _, .nil, _, _ => rfl
  | _, .cons _ rest, slots, h => by
    obtain ⟨hready, -, hrest⟩ := h
    have hrest' : rest.Prepared slots.2 := hrest
    exact Bool.and_eq_true_iff.mpr ⟨hready, hrest'.ready⟩

/-- A writer that completes its unit, from frames with `start`, if there is room for `bs`. -/
def Completes (start : FrameStack → Prop) (write : Sink → Writing) (bs : Bytes) : Prop :=
  ∀ sink, start sink.stack → bs.length ≤ sink.room → (write sink).progress = .advance

namespace Completes

variable {start middle : FrameStack → Prop} {bs cs : Bytes}

/-- Two units in a row. The first one leaves the room that the second one takes. -/
theorem andThen {keeps : FrameStack → FrameStack → Prop} {fits : Prop} {first next : Sink → Writing}
    (hfirst : Completes start first bs) (hemits : Emits start first bs fits middle)
    (hcontinues : Continuable keeps first) (hnext : Completes middle next cs) :
    Completes start (fun sink => (first sink).andThen next) (bs ++ cs) := by
  intro sink hstart hroom
  rw [List.length_append] at hroom
  have hadvance := hfirst sink hstart (by omega)
  obtain ⟨hemitted, -, hmiddle⟩ := hemits sink hstart hadvance
  have htaken := hcontinues.room sink
  rcases hw : first sink with ⟨progress, emitted, sink'⟩
  rw [hw] at hadvance hemitted hmiddle htaken
  obtain rfl : progress = .advance := hadvance
  obtain rfl : emitted = bs := hemitted
  simp only at htaken
  simp only [hw]
  exact hnext sink' hmiddle (by omega)

/-- A statement about more frames. -/
theorem weaken {start' : FrameStack → Prop} {write : Sink → Writing}
    (h : Completes start write bs) (hstart : ∀ s, start' s → start s) :
    Completes start' write bs :=
  fun sink hsink => h sink (hstart _ hsink)

/-- Where there is nothing to write. -/
theorem done : Completes start Writing.done bs := fun _ _ _ => rfl

/-- Octets that stay together. -/
theorem put (bs : Bytes) : Completes start (put bs) bs := by
  intro sink _ hroom
  rw [put_of_le hroom]

/-- A unit behind its length. -/
theorem sized {length : Option Nat} {contents : Sink → Writing}
    (hlength : ∀ n, length = some n → n ≤ maxWireLength)
    (h : Completes FrameStack.AtContents contents cs) :
    Completes FrameStack.AtField (writeSized length contents) (lengthBytes length ++ cs) := by
  have hencode : encodeLength length = .ok (lengthBytes length) := by
    cases length with
    | none => rfl
    | some n =>
      rw [encodeLength, if_pos (hlength n rfl)]
      rfl
  have hcontents : Completes FrameStack.AtField (fun sink =>
      contents (sink.modifyTop fun f => { f with fieldStarted := true })) cs :=
    fun sink hsink hroom => h _ ⟨hsink.messageStarted, hsink.position, hsink.fresh⟩ hroom
  intro sink hstart hroom
  simp only [writeSized, hstart.fieldStarted, Bool.false_eq_true, if_false, hencode]
  exact (put _).andThen (.put _) (Continuable.put _) hcontents sink hstart hroom

/-- A byte string. -/
theorem drain (bs : Bytes) : Completes FrameStack.AtContents (drainBytes bs) bs := by
  intro sink hstart hroom
  rw [drainBytes_of_le (by rw [hstart.position]; omega)]

/-- A byte string that may be absent. -/
theorem bytes {value : Option Bytes} (h : ∀ bs, value = some bs → bs.length ≤ maxWireLength) :
    Completes FrameStack.AtField (writeBytes value) (sizedBytes value) := by
  cases value with
  | none => exact sized (fun n hn => by cases hn) done
  | some bs =>
    refine sized (fun n hn => ?_) (drain bs)
    rw [← Option.some.inj hn]
    exact h bs rfl

/-- Elements in a row. -/
theorem each {A : Type} {write : A → Sink → Writing} {encode : A → Bytes} {fits : A → Prop}
    (hemits : ∀ item,
      Emits FrameStack.Fresh (write item) (encode item) (fits item) FrameStack.Fresh)
    (hcontinues : ∀ item, Continuable FrameStack.SameFrame (write item)) {items : List A}
    (h : ∀ item ∈ items, Completes FrameStack.Fresh (write item) (encode item)) :
    Completes FrameStack.Fresh (writeEach write items) (items.flatMap encode) := by
  induction items with
  | nil => exact done
  | cons item rest ih =>
    obtain ⟨hitem, hrest⟩ := List.forall_mem_cons.mp h
    have hnext : Completes FrameStack.Fresh (fun sink => writeEach write rest
        (sink.modifyTop fun f => { f with position := f.position + 1 })) (rest.flatMap encode) :=
      fun sink hsink hroom => ih hrest _ hsink hroom
    exact hitem.andThen (hemits item) (hcontinues item) hnext

/-- An array that may be absent. -/
theorem array {A : Type} {write : A → Sink → Writing} {encode : A → Bytes} {fits : A → Prop}
    (hemits : ∀ item,
      Emits FrameStack.Fresh (write item) (encode item) (fits item) FrameStack.Fresh)
    (hcontinues : ∀ item, Continuable FrameStack.SameFrame (write item)) {value : Option (List A)}
    (hlength : ∀ items, value = some items → items.length ≤ maxWireLength)
    (h : ∀ items, value = some items →
      ∀ item ∈ items, Completes FrameStack.Fresh (write item) (encode item)) :
    Completes FrameStack.AtField (writeArray write value) (arrayBytes encode value) := by
  cases value with
  | none => exact sized (fun n hn => by cases hn) done
  | some items =>
    have heach : Completes FrameStack.AtContents (fun sink =>
        writeEach write (items.drop sink.stack.top.position) sink) (items.flatMap encode) := by
      intro sink hsink hroom
      simp only [hsink.position, List.drop_zero]
      exact each hemits hcontinues (h items rfl) sink hsink.fresh hroom
    refine sized (fun n hn => ?_) heach
    rw [← Option.some.inj hn]
    exact hlength items rfl

section

variable {R : Type} {write : R → Sink → Writing} {encode : R → Bytes} {fits : R → Prop}

/-- A nested message. -/
theorem nested {message : R} (h : Completes FrameStack.AtMessage (write message) bs) :
    Completes FrameStack.Fresh (writeNested write message) bs :=
  fun _ hstart hroom => h _ hstart.enter hroom

/-- An array of messages that may be absent. -/
theorem messages
    (hemits : ∀ message, Emits FrameStack.AtMessage (write message) (encode message) (fits message)
      FrameStack.Fresh)
    (hcontinues : ∀ message, Continuable FrameStack.SameOuter (write message))
    {value : Option (List R)}
    (hlength : ∀ items, value = some items → items.length ≤ maxWireLength)
    (h : ∀ items, value = some items →
      ∀ item ∈ items, Completes FrameStack.AtMessage (write item) (encode item)) :
    Completes FrameStack.AtField (writeMessages write value) (arrayBytes encode value) :=
  array (Emits.nested hemits) (fun message => .writeNested message (hcontinues message)) hlength
    fun items hitems item hitem => nested (h items hitems item hitem)

end

/-- A header. -/
theorem header (type : UInt16) (fieldCount : Nat) (flags : UInt8) :
    Completes FrameStack.AtMessage (writeHeaderOnce type fieldCount flags)
      (headerBytes type fieldCount flags) := by
  intro sink hstart hroom
  have hdone : sink.stack.top.headerDone = false := by rw [hstart.top]
  rw [writeHeaderOnce_of_not_done sink hdone, put_of_le hroom]
  rfl

end Completes

/-- Fields that are complete have been counted. -/
theorem Fields.state_write : {S : Type} → (fields : Fields S) → (slots : S) → {sink : Sink} →
    (fields.write 0 slots sink).progress = .advance →
    (fields.write 0 slots sink).sink.stack.top.state = sink.stack.top.state + fields.count
  | _, .nil, _, _, _ => rfl
  | _, .cons field rest, slots, sink, h => by
    obtain ⟨-, hrest, hsink⟩ := Writing.andThen_eq_advance h
    have hfield := ((field.continuable slots.1).keeps sink).state
    have hcounted := rest.state_write slots.2 hrest
    have hnext : (field.write slots.1 sink).sink.stack.nextField.top.state =
        sink.stack.top.state + 1 := congrArg (· + 1) hfield
    rw [hnext, Nat.add_assoc, Nat.add_comm 1] at hcounted
    exact (congrArg (fun sink : Sink => sink.stack.top.state) hsink).trans hcounted

/-- A message whose fields are completed is completed. -/
theorem Completes.message {S : Type} (type : UInt16) {fields : Fields S}
    (settle : S → Except CodecError Unit × S) {message : Record S}
    (hready : fields.ready message.slots = true)
    (h : Completes FrameStack.AtField (fields.write 0 message.slots)
      (fields.encode message.slots)) :
    Completes FrameStack.AtMessage ((Layout.message type fields settle).write message)
      ((Layout.message type fields settle).encode message) := by
  have hbody : Completes (fun s => s.AtField ∧ s.top.state = 0)
      (writeBody type fields message.slots) (fields.encode message.slots) := by
    intro sink ⟨hfield, hstate⟩ hroom
    have hadvance := h sink hfield hroom
    have hcount := fields.state_write message.slots hadvance
    rw [hstate, Nat.zero_add] at hcount
    rw [writeBody, Fields.writeFrom, hstate]
    rcases hw : fields.write 0 message.slots sink with ⟨progress, emitted, sink'⟩
    rw [hw] at hadvance hcount
    obtain rfl : progress = .advance := hadvance
    rw [Writing.andThen_advance, Writing.after_progress, Writing.stop, hcount, checkFieldCount,
      if_pos rfl]
  intro sink hstart hroom
  rw [Layout.write_of_ready type settle hready]
  exact (header type fields.count message.flags).andThen (Emits.header _ _ _)
    (Continuable.writeHeaderOnce _ _ _) hbody sink hstart hroom

mutual
/-- A prepared message whose lengths fit is completed if there is room for it. -/
theorem Layout.completes : {R : Type} → (layout : Layout R) → {message : R} →
    layout.Prepared message → layout.Within maxWireLength message →
    Completes FrameStack.AtMessage (layout.write message) (layout.encode message)
  | _, .message type fields settle, message, hprepared, hwithin => by
    have hfields : fields.Prepared message.slots := hprepared
    exact .message type settle hfields.ready (fields.completes hfields hwithin)
/-- Prepared fields whose lengths fit are completed if there is room for them. -/
theorem Fields.completes : {S : Type} → (fields : Fields S) → {slots : S} →
    fields.Prepared slots → fields.Within maxWireLength slots →
    Completes FrameStack.AtField (fields.write 0 slots) (fields.encode slots)
  | _, .nil, _, _, _ => .done
  | _, .cons field rest, slots, hprepared, hwithin => by
    obtain ⟨-, hfield, hrest⟩ := hprepared
    obtain ⟨hfieldWithin, hrestWithin⟩ := hwithin
    have hnext : Completes FrameStack.Fresh (fun sink =>
        rest.write 0 slots.2 { sink with stack := sink.stack.nextField }) (rest.encode slots.2) :=
      fun _ hsink hroom => rest.completes hrest hrestWithin _ hsink.nextField hroom
    exact (field.completes hfield hfieldWithin).andThen (field.emits slots.1)
      (field.continuable slots.1) hnext
/-- A prepared field whose lengths fit is completed if there is room for it. -/
theorem Field.completes : {A : Type} → (field : Field A) → {slot : A} →
    field.Prepared slot → field.Within maxWireLength slot →
    Completes FrameStack.AtField (field.write slot) (field.encode slot)
  | _, .flag, _, _, _ => .put _
  | _, .ordinal _ _ _ _, _, _, _ => .put _
  | _, .int32, _, _, _ => .put _
  | _, .int64, _, _, _ => .put _
  | _, .uint128, _, _, _ => .put _
  | _, .bytes, _, _, hwithin => .bytes hwithin
  | _, .text _, slot, _, hwithin => by
    refine Completes.bytes fun bs hbs => ?_
    obtain ⟨s, hs, rfl⟩ := Option.map_eq_some_iff.mp hbs
    exact hwithin s hs
  | _, .longs, slot, _, hwithin => by
    refine Completes.array (fun n => Emits.put (int64Bytes n)) (fun n => .put _)
      (fun items hitems => ?_) fun _ _ n _ => .put _
    rw [← Option.some.inj hitems]
    exact hwithin
  | _, .optional layout, slot, hprepared, hwithin => by
    cases slot with
    | none => exact Completes.put nullBytes
    | some message =>
      exact (Completes.nested (layout.completes (hprepared message rfl) (hwithin message rfl))).weaken
        fun _ h => h.fresh
  | _, .required _ layout, slot, hprepared, hwithin =>
    (Completes.nested (layout.completes hprepared hwithin)).weaken fun _ h => h.fresh
  | _, .array layout, slot, hprepared, hwithin =>
    .messages layout.emits layout.continuable (fun items hitems => (hwithin items hitems).1)
      fun items hitems item hitem =>
        layout.completes (hprepared items hitems item hitem) ((hwithin items hitems).2 item hitem)
  | _, .batch layout, slot, hprepared, hwithin => by
    refine Completes.messages layout.emits layout.continuable (fun items hitems => ?_)
      fun items hitems item hitem => ?_
    · rw [← Option.some.inj hitems]
      exact hwithin.1
    · rw [← Option.some.inj hitems] at hitem
      exact layout.completes (hprepared item hitem) (hwithin.2 item hitem)
  | _, .keys layout, slot, hprepared, hwithin =>
    .messages layout.emits layout.continuable (fun items hitems => (hwithin items hitems).1)
      fun items hitems item hitem =>
        layout.completes (hprepared items hitems item hitem) ((hwithin items hitems).2 item hitem)
  | _, .values selector value invocation, slot, hprepared, hwithin => by
    obtain ⟨hvalues, hinvocations⟩ := hprepared
    obtain ⟨hvaluesWithin, hinvocationsWithin⟩ := hwithin
    intro sink hstart hroom
    simp only [Field.write, Field.encode] at hroom ⊢
    rcases hsettled : slot.settled with _ | items | items <;> simp only [hsettled] at hroom ⊢
    · refine Completes.messages value.emits value.continuable (fun _ h => by cases h)
        (fun _ h => by cases h) sink hstart ?_
      rwa [arrayBytes, Option.getD_none, List.flatMap_nil, List.append_nil]
    · refine Completes.messages value.emits value.continuable (fun items' h => ?_)
        (fun items' h item hitem => ?_) sink hstart hroom
      · rw [← Option.some.inj h]
        exact (hvaluesWithin items hsettled).1
      · rw [← Option.some.inj h] at hitem
        exact value.completes (hvalues items hsettled item hitem)
          ((hvaluesWithin items hsettled).2 item hitem)
    · refine Completes.messages invocation.emits invocation.continuable (fun items' h => ?_)
        (fun items' h item hitem => ?_) sink hstart hroom
      · rw [← Option.some.inj h]
        exact (hinvocationsWithin items hsettled).1
      · rw [← Option.some.inj h] at hitem
        exact invocation.completes (hinvocations items hsettled item hitem)
          ((hinvocationsWithin items hsettled).2 item hitem)
end

/-! ## The least buffer -/

/-- A writer that, with the room of the least buffer, comes to an end or emits something. -/
def Moves (write : Sink → Writing) : Prop :=
  ∀ sink, minBufferLength ≤ sink.room → (write sink).progress = .incomplete →
    (write sink).emitted ≠ []

namespace Moves

/-- Two units in a row. If the first one emits nothing, it leaves its room to the second one. -/
theorem andThen {keeps : FrameStack → FrameStack → Prop} {first next : Sink → Writing}
    (hfirst : Moves first) (hcontinues : Continuable keeps first) (hnext : Moves next) :
    Moves fun sink => (first sink).andThen next := by
  intro sink hroom hshort
  have hmoves := hfirst sink hroom
  have htaken := hcontinues.room sink
  rcases hw : first sink with ⟨_ | _ | e, emitted, sink'⟩
  · rw [hw] at htaken
    simp only [hw, Writing.andThen_advance, Writing.after_progress, Writing.after_emitted]
      at htaken hshort ⊢
    cases emitted with
    | nil =>
      rw [List.nil_append]
      refine hnext sink' ?_ hshort
      rw [List.length_nil] at htaken
      omega
    | cons b emitted => exact List.cons_ne_nil _ _
  · rw [hw] at hmoves
    simp only [hw]
    exact hmoves rfl
  · simp [hw, Writing.andThen] at hshort

/-- Where there is nothing to write. -/
theorem done : Moves Writing.done := fun _ _ h => by cases h

/-- The least buffer holds all octets that stay together. -/
theorem put {bs : Bytes} (h : bs.length ≤ minBufferLength) : Moves (put bs) := by
  intro sink hroom hshort
  rw [put_of_le (Nat.le_trans h hroom)] at hshort
  cases hshort

/-- A unit behind its length. -/
theorem sized {length : Option Nat} {contents : Sink → Writing} (h : Moves contents) :
    Moves (writeSized length contents) := by
  intro sink hroom
  have hcontents : Moves fun sink =>
      contents (sink.modifyTop fun f => { f with fieldStarted := true }) :=
    fun sink => h (sink.modifyTop fun f => { f with fieldStarted := true })
  unfold writeSized
  split
  · exact h sink hroom
  · cases hlength : encodeLength length with
    | error e => exact fun hshort => by cases hshort
    | ok bs =>
      refine andThen (put ?_) (Continuable.put bs) hcontents sink hroom
      have hbs : bs.length = 4 := by
        cases length with
        | none =>
          rw [← Except.ok.inj hlength]
          rfl
        | some n =>
          rw [encodeLength] at hlength
          split at hlength
          · rw [← Except.ok.inj hlength]
            exact Bytes.length_littleEndian 4 _
          · cases hlength
      rw [hbs]
      decide

/-- A byte string that is cut fills the room. -/
theorem drain (bs : Bytes) : Moves (drainBytes bs) := by
  intro ⟨s, room⟩ hroom hshort
  rcases Nat.lt_or_ge (s.top.position + room) bs.length with h | h
  · rw [drainBytes_of_lt h]
    intro hnil
    have hlength := congrArg List.length hnil
    simp only [List.length_take, List.length_drop, List.length_nil, minBufferLength] at hlength hroom
    omega
  · rw [drainBytes_of_le h] at hshort
    cases hshort

/-- A byte string that may be absent. -/
theorem bytes (value : Option Bytes) : Moves (writeBytes value) := by
  refine sized ?_
  cases value with
  | none => exact done
  | some bs => exact drain bs

/-- Elements in a row. -/
theorem each {A : Type} {write : A → Sink → Writing} (h : ∀ item, Moves (write item))
    (hcontinues : ∀ item, Continuable FrameStack.SameFrame (write item)) (items : List A) :
    Moves (writeEach write items) := by
  induction items with
  | nil => exact done
  | cons item rest ih =>
    have hnext : Moves fun sink => writeEach write rest
        (sink.modifyTop fun f => { f with position := f.position + 1 }) :=
      fun sink hroom => ih (sink.modifyTop fun f => { f with position := f.position + 1 }) hroom
    exact (h item).andThen (hcontinues item) hnext

/-- An array that may be absent. -/
theorem array {A : Type} {write : A → Sink → Writing} (h : ∀ item, Moves (write item))
    (hcontinues : ∀ item, Continuable FrameStack.SameFrame (write item))
    (value : Option (List A)) : Moves (writeArray write value) := by
  refine sized ?_
  cases value with
  | none => exact done
  | some items => exact fun sink => each h hcontinues _ sink

section

variable {R : Type} {write : R → Sink → Writing} (h : ∀ message, Moves (write message))
include h

/-- A nested message. -/
theorem nested (message : R) : Moves (writeNested write message) :=
  fun sink => h message { sink with stack := sink.stack.enter }

/-- An array of messages that may be absent. -/
theorem messages (hcontinues : ∀ message, Continuable FrameStack.SameOuter (write message))
    (value : Option (List R)) : Moves (writeMessages write value) :=
  array (nested h) (fun message => .writeNested message (hcontinues message)) value

end

/-- A header. -/
theorem header (type : UInt16) (fieldCount : Nat) (flags : UInt8) :
    Moves (writeHeaderOnce type fieldCount flags) := by
  intro sink hroom
  cases hdone : sink.stack.top.headerDone with
  | true =>
    rw [writeHeaderOnce_of_done sink hdone]
    exact fun hshort => by cases hshort
  | false =>
    have hlength : (headerBytes type fieldCount flags).length ≤ minBufferLength := by
      simp [headerBytes, minBufferLength]
    rw [writeHeaderOnce_of_not_done sink hdone]
    exact andThen (put hlength) (Continuable.put _) (fun _ _ hshort => by cases hshort) sink hroom

/-- A message whose fields move. -/
theorem message {S : Type} {type : UInt16} {fields : Fields S}
    {settle : S → Except CodecError Unit × S} {message : Record S}
    (h : ∀ skip, Moves (fields.write skip message.slots)) :
    Moves ((Layout.message type fields settle).write message) := by
  have hcheck : Moves fun sink =>
      .stop (checkFieldCount type fields.count sink.stack.top.state) sink :=
    fun _ _ hshort => absurd hshort (checkFieldCount_ne _ _ _)
  have hfields : Moves (fields.writeFrom 0 message.slots) := fun sink => h _ sink
  have hbody : Moves (writeBody type fields message.slots) :=
    hfields.andThen (fields.continuable message.slots).writeFrom hcheck
  cases hready : fields.ready message.slots with
  | false =>
    intro sink _ hshort
    simp [Layout.write, hready, Writing.stop] at hshort
  | true =>
    intro sink hroom
    rw [Layout.write_of_ready type settle hready]
    exact (header type fields.count message.flags).andThen (Continuable.writeHeaderOnce _ _ _)
      hbody sink hroom

end Moves

mutual
/-- A message moves. -/
theorem Layout.moves : {R : Type} → (layout : Layout R) → (message : R) →
    Moves (layout.write message)
  | _, .message _ fields _, message => .message fun skip => fields.moves skip message.slots
/-- Fields move. -/
theorem Fields.moves : {S : Type} → (fields : Fields S) → (skip : Nat) → (slots : S) →
    Moves (fields.write skip slots)
  | _, .nil, _, _ => .done
  | _, .cons _ rest, skip + 1, slots => rest.moves skip slots.2
  | _, .cons field rest, 0, slots => by
    have hnext : Moves fun sink =>
        rest.write 0 slots.2 { sink with stack := sink.stack.nextField } :=
      fun sink hroom => rest.moves 0 slots.2 { sink with stack := sink.stack.nextField } hroom
    exact (field.moves slots.1).andThen (field.continuable slots.1) hnext
/-- A field moves. -/
theorem Field.moves : {A : Type} → (field : Field A) → (slot : A) → Moves (field.write slot)
  | _, .flag, slot => .put (by simp [minBufferLength])
  | _, .ordinal _ _ _ _, _ => .put (by simp [minBufferLength])
  | _, .int32, _ => .put (by simp [int32Bytes, minBufferLength])
  | _, .int64, _ => .put (by simp [int64Bytes, minBufferLength])
  | _, .uint128, _ => .put (by simp [uint128Bytes, minBufferLength])
  | _, .bytes, slot => .bytes slot
  | _, .text _, slot => .bytes (slot.text.map Bytes.ofText)
  | _, .longs, slot =>
    .array (fun _ => .put (by simp [int64Bytes, minBufferLength])) (fun _ => .put _) (some slot)
  | _, .optional layout, slot => by
    cases slot with
    | none => exact Moves.put (by decide)
    | some message => exact Moves.nested layout.moves message
  | _, .required _ layout, slot => .nested layout.moves slot
  | _, .array layout, slot => .messages layout.moves layout.continuable slot
  | _, .batch layout, slot => .messages layout.moves layout.continuable (some slot.settled)
  | _, .keys layout, slot => .messages layout.moves layout.continuable slot.settled
  | _, .values selector value invocation, slot => by
    intro sink
    simp only [Field.write]
    rcases slot.settled with _ | items | items
    · exact Moves.messages value.moves value.continuable none sink
    · exact Moves.messages value.moves value.continuable (some items) sink
    · exact Moves.messages invocation.moves invocation.continuable (some items) sink
end

end Enlistment.Wire
