import Enlistment.Proofs.Wire.Frames
import Enlistment.Wire.Encoding
import Enlistment.Wire.Write

/-!
# What is written

A writer that completes a message from fresh frames has emitted its plain encoding,
and a message whose lengths do not fit their fields is not completed. A statement
about a writer says from which frames it starts, what it emits, what this tells about
the message and which frames it leaves.
-/

namespace Enlistment.Wire

mutual
/-- Whether the lengths of all byte strings, texts and arrays in a message are at most
`limit`. -/
def Layout.Within (limit : Nat) : {R : Type} → Layout R → R → Prop
  | _, .message _ fields _, message => fields.Within limit message.slots
/-- Whether the lengths in fields are at most `limit`. -/
def Fields.Within (limit : Nat) : {S : Type} → Fields S → S → Prop
  | _, .nil, _ => True
  | _, .cons field rest, slots => field.Within limit slots.1 ∧ rest.Within limit slots.2
/-- Whether the lengths in a field are at most `limit`. -/
def Field.Within (limit : Nat) : {A : Type} → Field A → A → Prop
  | _, .flag, _ => True
  | _, .ordinal _ _ _ _, _ => True
  | _, .int32, _ => True
  | _, .int64, _ => True
  | _, .uint128, _ => True
  | _, .bytes, slot => ∀ bs, slot = some bs → bs.length ≤ limit
  | _, .text _, slot => ∀ s, slot.text = some s → (Bytes.ofText s).length ≤ limit
  | _, .longs, slot => slot.length ≤ limit
  | _, .optional layout, slot => ∀ message, slot = some message → layout.Within limit message
  | _, .required _ layout, slot => layout.Within limit slot
  | _, .array layout, slot => ∀ items, slot = some items →
    items.length ≤ limit ∧ ∀ item ∈ items, layout.Within limit item
  | _, .batch layout, slot =>
    slot.settled.length ≤ limit ∧ ∀ item ∈ slot.settled, layout.Within limit item
  | _, .keys layout, slot => ∀ items, slot.settled = some items →
    items.length ≤ limit ∧ ∀ item ∈ items, layout.Within limit item
  | _, .values _ value invocation, slot =>
    (∀ items, slot.settled = some (.inl items) →
      items.length ≤ limit ∧ ∀ item ∈ items, value.Within limit item) ∧
    (∀ items, slot.settled = some (.inr items) →
      items.length ≤ limit ∧ ∀ item ∈ items, invocation.Within limit item)
end

mutual
/-- Whether a message keeps to a limit can be computed. -/
def Layout.decideWithin (limit : Nat) : {R : Type} → (layout : Layout R) → (message : R) →
    Decidable (layout.Within limit message)
  | _, .message _ fields _, message => fields.decideWithin limit message.slots
/-- Whether fields keep to a limit can be computed. -/
def Fields.decideWithin (limit : Nat) : {S : Type} → (fields : Fields S) → (slots : S) →
    Decidable (fields.Within limit slots)
  | _, .nil, _ => isTrue trivial
  | _, .cons field rest, slots =>
    have := field.decideWithin limit slots.1
    have := rest.decideWithin limit slots.2
    inferInstanceAs (Decidable (field.Within limit slots.1 ∧ rest.Within limit slots.2))
/-- Whether a field keeps to a limit can be computed. -/
def Field.decideWithin (limit : Nat) : {A : Type} → (field : Field A) → (slot : A) →
    Decidable (field.Within limit slot)
  | _, .flag, _ => isTrue trivial
  | _, .ordinal _ _ _ _, _ => isTrue trivial
  | _, .int32, _ => isTrue trivial
  | _, .int64, _ => isTrue trivial
  | _, .uint128, _ => isTrue trivial
  | _, .bytes, slot => inferInstanceAs (Decidable (∀ bs ∈ slot, bs.length ≤ limit))
  | _, .text _, slot =>
    inferInstanceAs (Decidable (∀ s ∈ slot.text, (Bytes.ofText s).length ≤ limit))
  | _, .longs, slot => inferInstanceAs (Decidable (slot.length ≤ limit))
  | _, .optional layout, slot =>
    have := layout.decideWithin limit
    inferInstanceAs (Decidable (∀ message ∈ slot, layout.Within limit message))
  | _, .required _ layout, slot => layout.decideWithin limit slot
  | _, .array layout, slot =>
    have := layout.decideWithin limit
    inferInstanceAs (Decidable (∀ items ∈ slot,
      items.length ≤ limit ∧ ∀ item ∈ items, layout.Within limit item))
  | _, .batch layout, slot =>
    have := layout.decideWithin limit
    inferInstanceAs (Decidable
      (slot.settled.length ≤ limit ∧ ∀ item ∈ slot.settled, layout.Within limit item))
  | _, .keys layout, slot =>
    have := layout.decideWithin limit
    inferInstanceAs (Decidable (∀ items ∈ slot.settled,
      items.length ≤ limit ∧ ∀ item ∈ items, layout.Within limit item))
  | _, .values _ value invocation, ⟨_, _, settled⟩ =>
    have := value.decideWithin limit
    have := invocation.decideWithin limit
    match settled with
    | none => isTrue ⟨fun _ h => (by cases h), fun _ h => (by cases h)⟩
    | some (.inl items) =>
      decidable_of_iff (items.length ≤ limit ∧ ∀ item ∈ items, value.Within limit item)
        ⟨fun h => ⟨fun _ heq => Sum.inl.inj (Option.some.inj heq) ▸ h, fun _ heq => (by cases heq)⟩,
          fun h => h.1 items rfl⟩
    | some (.inr items) =>
      decidable_of_iff (items.length ≤ limit ∧ ∀ item ∈ items, invocation.Within limit item)
        ⟨fun h => ⟨fun _ heq => (by cases heq), fun _ heq => Sum.inr.inj (Option.some.inj heq) ▸ h⟩,
          fun h => h.2 items rfl⟩
end

instance {R : Type} (limit : Nat) (layout : Layout R) (message : R) :
    Decidable (layout.Within limit message) := layout.decideWithin limit message

/-- The encoding of a message holds its header at least. -/
theorem Layout.headerLength_le_encode {R : Type} (layout : Layout R) (message : R) :
    headerLength ≤ (layout.encode message).length := by
  cases layout with
  | message type fields settle =>
    simp only [Layout.encode, headerBytes, headerLength, List.length_append,
      Bytes.length_littleEndian, List.length_cons, List.length_nil]
    omega

/-- A writer that, whenever it completes from frames with `start`, has emitted `bs` and
left frames with `finish`, and that completes only if `fits` holds. -/
def Emits (start : FrameStack → Prop) (write : Sink → Writing) (bs : Bytes) (fits : Prop)
    (finish : FrameStack → Prop) : Prop :=
  ∀ sink, start sink.stack → (write sink).progress = .advance →
    (write sink).emitted = bs ∧ fits ∧ finish (write sink).sink.stack

namespace Emits

variable {start middle finish : FrameStack → Prop} {bs cs : Bytes} {fits fits' : Prop}

/-- Two units in a row emit the octets of both. -/
theorem andThen {first next : Sink → Writing} (hfirst : Emits start first bs fits middle)
    (hnext : Emits middle next cs fits' finish) :
    Emits start (fun sink => (first sink).andThen next) (bs ++ cs) (fits ∧ fits') finish := by
  intro sink hstart hadvance
  rcases hw : first sink with ⟨_ | _ | e, emitted, sink'⟩
  · obtain ⟨hbs, hfits, hmiddle⟩ := hfirst sink hstart (by rw [hw])
    rw [hw] at hbs hmiddle
    simp only [hw] at hadvance ⊢
    obtain ⟨hcs, hfits', hfinish⟩ := hnext sink' hmiddle hadvance
    refine ⟨?_, ⟨hfits, hfits'⟩, hfinish⟩
    rw [← hbs, ← hcs]
    rfl
  · simp [hw, Writing.andThen] at hadvance
  · simp [hw, Writing.andThen] at hadvance

/-- A statement may say less. -/
theorem weaken {start' finish' : FrameStack → Prop} {write : Sink → Writing}
    (h : Emits start write bs fits finish) (hstart : ∀ s, start' s → start s)
    (hfits : fits → fits') (hfinish : ∀ s, finish s → finish' s) :
    Emits start' write bs fits' finish' := by
  intro sink hsink hadvance
  obtain ⟨hbs, hf, hs⟩ := h sink (hstart _ hsink) hadvance
  exact ⟨hbs, hfits hf, hfinish _ hs⟩

/-- Where there is nothing to write nothing is emitted. -/
theorem done : Emits start Writing.done [] True start :=
  fun _ hstart _ => ⟨rfl, trivial, hstart⟩

/-- Octets that stay together are emitted as they are. -/
theorem put (bs : Bytes) : Emits start (put bs) bs True start := by
  intro sink hstart hadvance
  unfold Wire.put at hadvance ⊢
  split at hadvance
  · simp [Writing.stop] at hadvance
  · next h =>
    rw [if_neg h]
    exact ⟨rfl, trivial, hstart⟩

/-- A field of fixed width. -/
theorem octets (bs : Bytes) : Emits FrameStack.AtField (Wire.put bs) bs True FrameStack.Fresh :=
  (put bs).weaken (fun _ h => h) id fun _ h => h.fresh

/-- A unit behind its length emits the length and the contents. -/
theorem sized {length : Option Nat} {contents : Sink → Writing}
    (h : Emits FrameStack.AtContents contents cs fits finish) :
    Emits FrameStack.AtField (writeSized length contents) (lengthBytes length ++ cs)
      ((∀ n, length = some n → n ≤ maxWireLength) ∧ fits) finish := by
  intro sink hstart hadvance
  have hlength : ∀ bs, encodeLength length = .ok bs →
      bs = lengthBytes length ∧ ∀ n, length = some n → n ≤ maxWireLength := by
    intro bs hbs
    cases length with
    | none => exact ⟨(Except.ok.inj hbs).symm, fun n hn => by simp at hn⟩
    | some n =>
      simp only [encodeLength] at hbs
      split at hbs
      · next hle =>
        refine ⟨(Except.ok.inj hbs).symm, fun m hm => ?_⟩
        rw [← Option.some.inj hm]
        exact hle
      · simp at hbs
  simp only [writeSized, hstart.fieldStarted, Bool.false_eq_true, if_false] at hadvance ⊢
  cases hbs : encodeLength length with
  | error e => simp [hbs, Writing.stop] at hadvance
  | ok bs =>
    obtain ⟨rfl, hfits⟩ := hlength bs hbs
    simp only [hbs] at hadvance ⊢
    have hcontents : Emits FrameStack.AtField (fun sink =>
        contents (sink.modifyTop fun f => { f with fieldStarted := true })) cs fits finish :=
      fun sink hsink hdone => h _ ⟨hsink.messageStarted, hsink.position, hsink.fresh⟩ hdone
    obtain ⟨hemitted, ⟨-, hf⟩, hfinish⟩ :=
      (put (lengthBytes length)).andThen hcontents sink hstart hadvance
    exact ⟨hemitted, ⟨hfits, hf⟩, hfinish⟩

/-- A byte string is emitted as it is. -/
theorem drain (bs : Bytes) :
    Emits FrameStack.AtContents (drainBytes bs) bs True FrameStack.Fresh := by
  intro sink hstart hadvance
  simp only [drainBytes, hstart.position, List.drop_zero, Nat.zero_add] at hadvance ⊢
  refine ⟨?_, trivial, hstart.fresh⟩
  have hle : bs.length ≤ min sink.room bs.length := by
    simpa [Progress.ofComplete] using hadvance
  exact List.take_of_length_le (by omega)

/-- A byte string that may be absent. -/
theorem bytes (value : Option Bytes) :
    Emits FrameStack.AtField (writeBytes value) (sizedBytes value)
      (∀ bs, value = some bs → bs.length ≤ maxWireLength) FrameStack.Fresh := by
  cases value with
  | none =>
    refine (sized (done.weaken (fun s h => h.fresh) id fun _ h => h)).weaken (fun _ h => h)
      (fun _ bs hbs => by simp at hbs) fun _ h => h
  | some bs =>
    refine (sized (drain bs)).weaken (fun _ h => h) (fun hfits bs' hbs' => ?_) fun _ h => h
    rw [← Option.some.inj hbs']
    exact hfits.1 bs.length rfl

/-- Elements emit their octets in order. -/
theorem each {A : Type} {write : A → Sink → Writing} {encode : A → Bytes} {fits : A → Prop}
    (h : ∀ item, Emits FrameStack.Fresh (write item) (encode item) (fits item) FrameStack.Fresh)
    (items : List A) :
    Emits FrameStack.Fresh (writeEach write items) (items.flatMap encode)
      (∀ item ∈ items, fits item) FrameStack.Fresh := by
  induction items with
  | nil => exact done.weaken (fun _ h => h) (fun _ item hitem => by simp at hitem) fun _ h => h
  | cons item rest ih =>
    have hnext : Emits FrameStack.Fresh (fun sink => writeEach write rest
        (sink.modifyTop fun f => { f with position := f.position + 1 })) (rest.flatMap encode)
        (∀ item ∈ rest, fits item) FrameStack.Fresh := fun sink hsink => ih _ hsink
    rw [List.flatMap_cons]
    refine ((h item).andThen hnext).weaken (fun _ h => h) (fun ⟨hitem, hrest⟩ => ?_) fun _ h => h
    exact List.forall_mem_cons.mpr ⟨hitem, hrest⟩

/-- An array that may be absent. -/
theorem array {A : Type} {write : A → Sink → Writing} {encode : A → Bytes} {fits : A → Prop}
    (h : ∀ item, Emits FrameStack.Fresh (write item) (encode item) (fits item) FrameStack.Fresh)
    (value : Option (List A)) :
    Emits FrameStack.AtField (writeArray write value) (arrayBytes encode value)
      (∀ items, value = some items →
        items.length ≤ maxWireLength ∧ ∀ item ∈ items, fits item) FrameStack.Fresh := by
  cases value with
  | none =>
    exact (sized (done.weaken (fun s h => h.fresh) id fun _ h => h)).weaken (fun _ h => h)
      (fun _ items hitems => by simp at hitems) fun _ h => h
  | some items =>
    have heach : Emits FrameStack.AtContents (fun sink =>
        writeEach write (items.drop sink.stack.top.position) sink) (items.flatMap encode)
        (∀ item ∈ items, fits item) FrameStack.Fresh := by
      intro sink hsink hadvance
      simp only [hsink.position, List.drop_zero] at hadvance ⊢
      exact each h items sink hsink.fresh hadvance
    refine (sized heach).weaken (fun _ h => h) (fun ⟨hlength, hitems⟩ items' h' => ?_) fun _ h => h
    rw [← Option.some.inj h']
    exact ⟨hlength items.length rfl, hitems⟩

section

variable {R : Type} {write : R → Sink → Writing} {encode : R → Bytes} {fits : R → Prop}
  (h : ∀ message, Emits FrameStack.AtMessage (write message) (encode message) (fits message)
    FrameStack.Fresh)

include h

/-- A nested message emits what it would emit on its own. -/
theorem nested (message : R) :
    Emits FrameStack.Fresh (writeNested write message) (encode message) (fits message)
      FrameStack.Fresh := by
  intro sink hstart hadvance
  obtain ⟨hemitted, hfits, hfinish⟩ := h message ⟨sink.stack.enter, sink.room⟩ hstart.enter hadvance
  have hadvance' : (write message ⟨sink.stack.enter, sink.room⟩).progress = .advance := hadvance
  refine ⟨hemitted, hfits, ?_⟩
  simp only [writeNested, hadvance']
  exact hfinish.leave

/-- An array of messages that may be absent. -/
theorem messages (value : Option (List R)) :
    Emits FrameStack.AtField (writeMessages write value) (arrayBytes encode value)
      (∀ items, value = some items →
        items.length ≤ maxWireLength ∧ ∀ item ∈ items, fits item) FrameStack.Fresh :=
  array (nested h) value

end

/-- A header is emitted at the start of a message and leads to its first field. -/
theorem header (type : UInt16) (fieldCount : Nat) (flags : UInt8) :
    Emits FrameStack.AtMessage (writeHeaderOnce type fieldCount flags)
      (headerBytes type fieldCount flags) True
      (fun s => s.AtField ∧ s.top.state = 0) := by
  intro sink hstart hadvance
  have hdone : sink.stack.top.headerDone = false := by rw [hstart.top]
  have hfirst : Emits FrameStack.AtMessage (fun sink => Writing.done
      { sink with stack := sink.stack.headerWritten }) [] True
      (fun s => s.AtField ∧ s.top.state = 0) := by
    intro sink hsink _
    have htop := hsink.top
    refine ⟨rfl, trivial, ⟨?_, ?_, ?_, hsink.fresh⟩, ?_⟩ <;>
      simp [Writing.done, FrameStack.headerWritten, FrameStack.modifyTop, htop]
  simp only [writeHeaderOnce, writeHeader, hdone, Bool.false_eq_true, if_false] at hadvance ⊢
  have h := (put (headerBytes type fieldCount flags)).andThen hfirst sink hstart hadvance
  rw [List.append_nil] at h
  exact ⟨h.1, trivial, h.2.2⟩

end Emits

/-- A message is emitted as its header and its fields. -/
theorem Emits.message {S : Type} (type : UInt16) {fields : Fields S}
    (settle : S → Except CodecError Unit × S) {message : Record S}
    (h : Emits FrameStack.AtField (fields.write 0 message.slots) (fields.encode message.slots)
      (fields.Within maxWireLength message.slots) FrameStack.Fresh) :
    Emits FrameStack.AtMessage ((Layout.message type fields settle).write message)
      ((Layout.message type fields settle).encode message)
      ((Layout.message type fields settle).Within maxWireLength message) FrameStack.Fresh := by
  intro sink hstart hadvance
  have hcheck : Emits FrameStack.Fresh (fun sink => .stop
      (checkFieldCount type fields.count sink.stack.top.state) sink) [] True FrameStack.Fresh :=
    fun sink hsink _ => ⟨rfl, trivial, hsink⟩
  have hfields : Emits (fun s => s.AtField ∧ s.top.state = 0) (fun sink =>
      fields.write sink.stack.top.state message.slots sink) (fields.encode message.slots)
      (fields.Within maxWireLength message.slots) FrameStack.Fresh := by
    intro sink hsink hdone
    simp only [hsink.2] at hdone ⊢
    exact h sink hsink.1 hdone
  have hwrite := (Emits.header type fields.count message.flags).andThen (hfields.andThen hcheck)
  simp only [Layout.write] at hadvance ⊢
  split at hadvance
  · next hready =>
    obtain ⟨hemitted, ⟨-, hfits, -⟩, hfinish⟩ := hwrite sink hstart hadvance
    rw [if_pos hready]
    rw [List.append_nil] at hemitted
    exact ⟨hemitted, hfits, hfinish⟩
  · simp [Writing.stop] at hadvance

mutual
/-- A message that is completed has emitted its encoding. -/
theorem Layout.emits : {R : Type} → (layout : Layout R) → (message : R) →
    Emits FrameStack.AtMessage (layout.write message) (layout.encode message)
      (layout.Within maxWireLength message) FrameStack.Fresh
  | _, .message type fields settle, message => .message type settle (fields.emits message.slots)
/-- Fields that are completed have emitted their encoding. -/
theorem Fields.emits : {S : Type} → (fields : Fields S) → (slots : S) →
    Emits FrameStack.AtField (fields.write 0 slots) (fields.encode slots)
      (fields.Within maxWireLength slots) FrameStack.Fresh
  | _, .nil, () => Emits.done.weaken (fun _ h => h) id fun _ h => h.fresh
  | _, .cons field rest, slots =>
    (field.emits slots.1).andThen fun _ hsink => rest.emits slots.2 _ hsink.nextField
/-- A field that is completed has emitted its encoding. -/
theorem Field.emits : {A : Type} → (field : Field A) → (slot : A) →
    Emits FrameStack.AtField (field.write slot) (field.encode slot)
      (field.Within maxWireLength slot) FrameStack.Fresh
  | _, .flag, _ => .octets _
  | _, .ordinal _ _ _ _, _ => .octets _
  | _, .int32, _ => .octets _
  | _, .int64, _ => .octets _
  | _, .uint128, _ => .octets _
  | _, .bytes, slot => .bytes slot
  | _, .text _, slot => by
    refine (Emits.bytes (slot.text.map Bytes.ofText)).weaken (fun _ h => h) (fun hfits s hs => ?_)
      fun _ h => h
    exact hfits (Bytes.ofText s) (by rw [hs, Option.map_some])
  | _, .longs, slot => by
    have hitem : ∀ n, Emits FrameStack.Fresh (writeInt64 n) (int64Bytes n) True FrameStack.Fresh :=
      fun n => .put _
    exact (Emits.array hitem (some slot)).weaken (fun _ h => h) (fun hfits => (hfits slot rfl).1)
      fun _ h => h
  | _, .optional layout, slot => by
    cases slot with
    | none =>
      exact (Emits.octets nullBytes).weaken (fun _ h => h) (fun _ message h => by simp at h)
        fun _ h => h
    | some message =>
      refine (Emits.nested layout.emits message).weaken (fun _ h => h.fresh)
        (fun hfits message' h => ?_) fun _ h => h
      rwa [← Option.some.inj h]
  | _, .required _ layout, slot =>
    (Emits.nested layout.emits slot).weaken (fun _ h => h.fresh) id fun _ h => h
  | _, .array layout, slot => .messages layout.emits slot
  | _, .batch layout, slot =>
    (Emits.messages layout.emits (some slot.settled)).weaken (fun _ h => h)
      (fun hfits => hfits slot.settled rfl) fun _ h => h
  | _, .keys layout, slot => .messages layout.emits slot.settled
  | _, .values selector value invocation, slot => by
    intro sink hstart hadvance
    simp only [Field.write, Field.encode, Field.Within] at hadvance ⊢
    rcases hsettled : slot.settled with _ | items | items <;> simp only [hsettled] at hadvance ⊢
    · obtain ⟨hemitted, -, hfinish⟩ := Emits.messages value.emits none sink hstart hadvance
      rw [arrayBytes, Option.getD_none, List.flatMap_nil, List.append_nil] at hemitted
      exact ⟨hemitted, ⟨fun _ h => by simp at h, fun _ h => by simp at h⟩, hfinish⟩
    · obtain ⟨hemitted, hfits, hfinish⟩ :=
        Emits.messages value.emits (some items) sink hstart hadvance
      refine ⟨hemitted, ⟨fun items' h => hfits items' ?_, fun _ h => by simp at h⟩, hfinish⟩
      rw [Sum.inl.inj (Option.some.inj h)]
    · obtain ⟨hemitted, hfits, hfinish⟩ :=
        Emits.messages invocation.emits (some items) sink hstart hadvance
      refine ⟨hemitted, ⟨fun _ h => by simp at h, fun items' h => hfits items' ?_⟩, hfinish⟩
      rw [Sum.inr.inj (Option.some.inj h)]
end

/-- Whether every field of a message may be written. -/
def Layout.ready : {R : Type} → Layout R → R → Bool
  | _, .message _ fields _, record => fields.ready record.slots

/-- A message that is completed could be written. -/
theorem Layout.ready_of_write {R : Type} (layout : Layout R) {record : R} {sink : Sink}
    (h : (layout.write record sink).progress = .advance) : layout.ready record = true := by
  cases layout with
  | message type fields settle =>
    simp only [write] at h
    split at h
    · next hready => exact hready
    · cases h

end Enlistment.Wire
