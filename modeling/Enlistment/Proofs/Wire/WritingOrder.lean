import Enlistment.Proofs.Wire.NestedWrites
import Enlistment.Proofs.Wire.ReadingOrder

/-!
# Frames of a writer

A writer stands at a field of every message it is inside of. It announces no messages and keeps
no lengths, so the position in the frame is all that tells how much of the field is out, and it
is the element at this position that may be suspended one level down. One call keeps this whether
it comes to its end, runs out of room or fails.
-/

namespace Enlistment.Wire

/-! ## Places in order -/

/-- Nothing is suspended below a place. -/
def Place.Fresh (p : Place) : Prop := ∀ f ∈ p.deeper, f = {}

/-- Whether as much of a list is out as the position at a place says. Only the element at the
position may be under way below it, as `element` says. -/
structure SentInOrder {A : Type} (element : Place → A → Prop) (p : Place) (items : List A) :
    Prop where
  messageStarted : p.top.messageStarted = false
  length : p.top.length = 0
  position : p.top.position ≤ items.length
  undeclared : p.top.fieldStarted = false → p.AtRest
  current : ∀ item, items[p.top.position]? = some item → element p item
  finished : items[p.top.position]? = none → p.Fresh

/-- Whether a message is out in order up to a place one level down. -/
structure MessageSent {R : Type} (inOrder : Place → R → Prop) (p : Place) (slot : Option R) :
    Prop where
  fieldStarted : p.top.fieldStarted = false
  messageStarted : p.top.messageStarted = false
  position : p.top.position = 0
  length : p.top.length = 0
  nested : ∀ message, slot = some message → inOrder p.nested message
  absent : slot = none → p.Fresh

mutual
/-- Whether a message has been written in order up to a place. -/
def Layout.WritesInOrder : {R : Type} → Layout R → Place → R → Prop
  | _, .message _ fields _, p, message =>
    p.top.state ≤ fields.count ∧ fields.WritesInOrder p.top.state p message.slots
/-- Whether fields have been written in order up to a place in the one behind the first `skip`. -/
def Fields.WritesInOrder : {S : Type} → Fields S → (skip : Nat) → Place → S → Prop
  | _, .nil, _, p, _ => p.AtRest
  | _, .cons _ rest, skip + 1, p, slots => rest.WritesInOrder skip p slots.2
  | _, .cons field _, 0, p, slots => field.WritesInOrder p slots.1
/-- Whether a field has been written in order up to a place. -/
def Field.WritesInOrder : {A : Type} → Field A → Place → A → Prop
  | _, .flag, p, _ => p.AtRest
  | _, .ordinal _ _ _ _, p, _ => p.AtRest
  | _, .int32, p, _ => p.AtRest
  | _, .int64, p, _ => p.AtRest
  | _, .uint128, p, _ => p.AtRest
  | _, .bytes, p, slot => SentInOrder (fun p _ => p.Fresh) p (slot.getD [])
  | _, .text _, p, slot => SentInOrder (fun p _ => p.Fresh) p ((slot.text.map Bytes.ofText).getD [])
  | _, .longs, p, slot => SentInOrder (fun p _ => p.Fresh) p slot
  | _, .optional layout, p, slot => MessageSent layout.WritesInOrder p slot
  | _, .required _ layout, p, slot => MessageSent layout.WritesInOrder p (some slot)
  | _, .array layout, p, slot =>
    SentInOrder (fun p item => layout.WritesInOrder p.nested item) p (slot.getD [])
  | _, .batch layout, p, slot =>
    SentInOrder (fun p item => layout.WritesInOrder p.nested item) p slot.settled
  | _, .keys layout, p, slot =>
    SentInOrder (fun p item => layout.WritesInOrder p.nested item) p (slot.settled.getD [])
  | _, .values _ value invocation, p, slot =>
    match slot.settled with
    | none => SentInOrder (fun p item => value.WritesInOrder p.nested item) p []
    | some (.inl items) => SentInOrder (fun p item => value.WritesInOrder p.nested item) p items
    | some (.inr items) =>
      SentInOrder (fun p item => invocation.WritesInOrder p.nested item) p items
end

/-! ## Where nothing is under way -/

/-- A list of which nothing is out is in order, as long as its elements are where nothing is
suspended. -/
theorem Place.AtRest.sentInOrder {p : Place} (h : p.AtRest) {A : Type} {element : Place → A → Prop}
    {items : List A} (hfresh : ∀ (p : Place) item, p.Fresh → element p item) :
    SentInOrder element p items :=
  ⟨h.messageStarted, h.length, by rw [h.position]; exact Nat.zero_le _, fun _ => h,
    fun item _ => hfresh p item h.deeper, fun _ => h.deeper⟩

/-- A message of which nothing is out is in order. -/
theorem Place.AtRest.messageSent {p : Place} (h : p.AtRest) {R : Type}
    {inOrder : Place → R → Prop} {slot : Option R}
    (hfresh : ∀ (p : Place) message, p.Fresh → inOrder p.nested message) :
    MessageSent inOrder p slot :=
  ⟨h.fieldStarted, h.messageStarted, h.position, h.length,
    fun message _ => hfresh p message h.deeper, fun _ => h.deeper⟩

/-- One level below a place where nothing is suspended nothing is under way. -/
theorem Place.Fresh.nested_atRest {p : Place} (h : p.Fresh) :
    p.nested.AtRest ∧ p.nested.top.state = 0 := by
  have hmessage : (FrameStack.mk [] p.top p.deeper).enter.AtMessage := FrameStack.Fresh.enter h
  exact ⟨hmessage.atRest, congrArg Frame.state hmessage.top⟩

mutual
/-- A message of which nothing is out is in order. -/
theorem Layout.writesInOrder_of_fresh : {R : Type} → (layout : Layout R) → (p : Place) →
    (message : R) → p.Fresh → layout.WritesInOrder p.nested message
  | _, .message _ fields _, p, message, h => by
    obtain ⟨hrest, hstate⟩ := h.nested_atRest
    refine ⟨?_, fields.writesInOrder_of_atRest _ hrest message.slots⟩
    rw [hstate]
    exact Nat.zero_le _
/-- Fields of which nothing is out are in order. -/
theorem Fields.writesInOrder_of_atRest : {S : Type} → (fields : Fields S) → (skip : Nat) →
    {p : Place} → p.AtRest → (slots : S) → fields.WritesInOrder skip p slots
  | _, .nil, _, _, h, _ => h
  | _, .cons _ rest, skip + 1, _, h, slots => rest.writesInOrder_of_atRest skip h slots.2
  | _, .cons field _, 0, _, h, slots => field.writesInOrder_of_atRest h slots.1
/-- A field of which nothing is out is in order. -/
theorem Field.writesInOrder_of_atRest : {A : Type} → (field : Field A) → {p : Place} →
    p.AtRest → (slot : A) → field.WritesInOrder p slot
  | _, .flag, _, h, _ => h
  | _, .ordinal _ _ _ _, _, h, _ => h
  | _, .int32, _, h, _ => h
  | _, .int64, _, h, _ => h
  | _, .uint128, _, h, _ => h
  | _, .bytes, _, h, _ => h.sentInOrder fun _ _ h => h
  | _, .text _, _, h, _ => h.sentInOrder fun _ _ h => h
  | _, .longs, _, h, _ => h.sentInOrder fun _ _ h => h
  | _, .optional layout, _, h, _ => h.messageSent layout.writesInOrder_of_fresh
  | _, .required _ layout, _, h, _ => h.messageSent layout.writesInOrder_of_fresh
  | _, .array layout, _, h, _ => h.sentInOrder layout.writesInOrder_of_fresh
  | _, .batch layout, _, h, _ => h.sentInOrder layout.writesInOrder_of_fresh
  | _, .keys layout, _, h, _ => h.sentInOrder layout.writesInOrder_of_fresh
  | _, .values _ value invocation, _, h, slot => by
    unfold Field.WritesInOrder
    split
    · exact h.sentInOrder value.writesInOrder_of_fresh
    · exact h.sentInOrder value.writesInOrder_of_fresh
    · exact h.sentInOrder invocation.writesInOrder_of_fresh
end

/-- A message that is started where nothing is under way is in order. -/
theorem Layout.writesInOrder_of_atMessage {R : Type} (layout : Layout R) (s : FrameStack)
    (message : R) (h : s.AtMessage) : layout.WritesInOrder s.place message := by
  cases layout with
  | message type fields settle =>
    refine ⟨?_, fields.writesInOrder_of_atRest _ h.atRest message.slots⟩
    rw [FrameStack.place, h.top]
    exact Nat.zero_le _

/-! ## Units -/

/-- What a call on a unit leaves: what is in order where the call stopped, and nothing suspended
below once the unit is complete. -/
structure Writing.InOrder (inOrder : Place → Prop) (w : Writing) : Prop where
  stopped : w.progress ≠ .advance → inOrder w.sink.stack.place
  finished : w.progress = .advance → w.sink.stack.Fresh

/-- A call that stops before the end leaves something to go on with. -/
theorem Writing.InOrder.stop {inOrder : Place → Prop} {w : Writing} (h : w.progress ≠ .advance)
    (horder : inOrder w.sink.stack.place) : w.InOrder inOrder :=
  ⟨fun _ => horder, fun hadvance => absurd hadvance h⟩

/-- A call that comes to the end leaves nothing suspended below. -/
theorem Writing.InOrder.finish {inOrder : Place → Prop} {w : Writing} (h : w.progress = .advance)
    (hfresh : w.sink.stack.Fresh) : w.InOrder inOrder :=
  ⟨fun hne => absurd h hne, fun _ => hfresh⟩

/-- A writer that leaves in order what is in order. -/
def KeepsPlace (inOrder : Place → Prop) (write : Sink → Writing) : Prop :=
  ∀ sink, inOrder sink.stack.place → (write sink).InOrder inOrder

/-- A unit of fixed width. -/
theorem KeepsPlace.put (bs : Bytes) : KeepsPlace Place.AtRest (put bs) := by
  intro sink h
  refine ⟨fun _ => ?_, fun _ => ?_⟩ <;> rw [put_stack]
  · exact h
  · exact h.deeper

section

variable {A : Type} {element : Place → A → Prop} {items : List A}
  (hfresh : ∀ (p : Place) item, p.Fresh → element p item)
include hfresh

/-- Behind the length of a list nothing of it is out. -/
theorem SentInOrder.start {s : FrameStack} (hidle : s.top.fieldStarted = false)
    (h : SentInOrder element s.place items) :
    SentInOrder element (s.modifyTop fun f => { f with fieldStarted := true }).place items :=
  have hrest := (h.undeclared hidle).deeper
  ⟨h.messageStarted, h.length, h.position, nofun, fun _ _ => hfresh _ _ hrest, fun _ => hrest⟩

/-- A list behind its length. -/
theorem SentInOrder.keepsPlace {length : Option Nat} {contents : Sink → Writing}
    (hcontents : ∀ sink, sink.stack.top.fieldStarted = true →
      SentInOrder element sink.stack.place items →
        (contents sink).InOrder fun p => SentInOrder element p items) :
    KeepsPlace (fun p => SentInOrder element p items) (writeSized length contents) := by
  intro sink h
  cases hsink : contentsSink length sink with
  | none =>
    obtain ⟨progress, hne, hidle⟩ := writeSized_of_idle contents hsink
    rw [hidle]
    exact .stop hne h
  | some sink' =>
    obtain ⟨bs, hwrite⟩ := writeSized_of_contents contents hsink
    rw [hwrite]
    have hcalled : (contents sink').InOrder fun p => SentInOrder element p items := by
      obtain ⟨hstarted, rfl⟩ | ⟨hidle, hstack⟩ := contentsSink_cases hsink
      · exact hcontents sink' hstarted h
      · refine hcontents sink' ?_ ?_ <;> rw [hstack]
        · rfl
        · exact h.start hfresh hidle
    exact ⟨hcalled.stopped, hcalled.finished⟩

/-- Once the element at the position is complete, the list is in order at the next one. -/
theorem SentInOrder.next {s t : FrameStack} (h : SentInOrder element s.place items)
    (hfield : s.top.fieldStarted = true) (hlt : s.top.position < items.length)
    (htop : t.top = s.top) (hbelow : t.Fresh) :
    SentInOrder element (t.modifyTop fun f => { f with position := f.position + 1 }).place
      items := by
  obtain ⟨outer, top, deeper⟩ := t
  obtain rfl : top = s.top := htop
  exact ⟨h.messageStarted, h.length, hlt,
    fun hidle => absurd (hidle.symm.trans hfield) Bool.false_ne_true,
    fun item _ => hfresh _ item hbelow, fun _ => hbelow⟩

omit hfresh in
/-- Where the element at the position has been stopped, the list is in order as long as this
element is. -/
theorem SentInOrder.stop {s t : FrameStack} {item : A} (h : SentInOrder element s.place items)
    (hfield : s.top.fieldStarted = true) (hitem : items[s.top.position]? = some item)
    (htop : t.top = s.top) (hcurrent : element t.place item) :
    SentInOrder element t.place items := by
  obtain ⟨outer, top, deeper⟩ := t
  obtain rfl : top = s.top := htop
  refine ⟨h.messageStarted, h.length, h.position,
    fun hidle => absurd (hidle.symm.trans hfield) Bool.false_ne_true, fun item' hitem' => ?_,
    fun hnone => absurd (hitem.symm.trans hnone) nofun⟩
  obtain rfl := Option.some.inj (hitem.symm.trans hitem')
  exact hcurrent

/-- The elements from the one at the position on. The induction is on their number: with every
element that is complete the position moves on, and nothing is suspended below. -/
theorem writeEach_inOrder {write : A → Sink → Writing}
    (hwrite : ∀ item, Continuable FrameStack.SameFrame (write item))
    (h : ∀ item, KeepsPlace (fun p => element p item) (write item)) (left : List A) {sink : Sink}
    (hleft : items.drop sink.stack.top.position = left)
    (hfield : sink.stack.top.fieldStarted = true)
    (hitems : SentInOrder element sink.stack.place items) :
    (writeEach write left sink).InOrder fun p => SentInOrder element p items := by
  induction left generalizing sink with
  | nil =>
    refine .finish rfl (hitems.finished ?_)
    exact List.getElem?_eq_none_iff.mpr (List.drop_eq_nil_iff.mp hleft)
  | cons item rest ih =>
    have hitem : items[sink.stack.top.position]? = some item := by
      rw [← List.head?_drop, hleft]
      rfl
    have hlt : sink.stack.top.position < items.length := (List.getElem?_eq_some_iff.mp hitem).1
    have hkeeps := (hwrite item).keeps sink
    have hcalled := h item sink (hitems.current item hitem)
    simp only [writeEach]
    rcases hw : write item sink with ⟨_ | _ | e, emitted, sink'⟩ <;> rw [hw] at hkeeps hcalled
    · have htop : sink'.stack.top = sink.stack.top := hkeeps.top
      have hposition : sink'.nextElement.stack.top.position = sink.stack.top.position + 1 :=
        congrArg (fun f => f.position + 1) htop
      have hnext : (writeEach write rest sink'.nextElement).InOrder
          fun p => SentInOrder element p items := by
        refine ih ?_ ?_ (hitems.next hfresh hfield hlt htop (hcalled.finished rfl))
        · rw [hposition, ← List.tail_drop, hleft, List.tail_cons]
        · exact (congrArg Frame.fieldStarted htop).trans hfield
      exact ⟨hnext.stopped, hnext.finished⟩
    all_goals
      exact .stop (fun hcontra => by cases hcontra)
        (hitems.stop hfield hitem hkeeps.top (hcalled.stopped fun hcontra => by cases hcontra))

/-- An array that may be absent. -/
theorem KeepsPlace.writeArray {write : A → Sink → Writing}
    (hwrite : ∀ item, Continuable FrameStack.SameFrame (write item))
    (h : ∀ item, KeepsPlace (fun p => element p item) (write item)) (value : Option (List A)) :
    KeepsPlace (fun p => SentInOrder element p (value.getD [])) (writeArray write value) := by
  refine SentInOrder.keepsPlace hfresh fun sink hfield hitems => ?_
  cases value with
  | none => exact .finish rfl (hitems.finished rfl)
  | some items => exact writeEach_inOrder hfresh hwrite h _ rfl hfield hitems

end

/-- The rest of a byte string. -/
theorem drainBytes_inOrder {bs : Bytes} {sink : Sink} (hfield : sink.stack.top.fieldStarted = true)
    (h : SentInOrder (fun p _ => p.Fresh) sink.stack.place bs) :
    (drainBytes bs sink).InOrder fun p => SentInOrder (fun p _ => p.Fresh) p bs := by
  obtain ⟨s, room⟩ := sink
  have hbelow : s.Fresh := by
    cases hcurrent : bs[s.top.position]? with
    | none => exact h.finished hcurrent
    | some octet => exact h.current octet hcurrent
  rcases Nat.lt_or_ge (s.top.position + room) bs.length with hshort | hle
  · rw [drainBytes_of_lt hshort]
    refine .stop (fun hcontra => by cases hcontra) ⟨h.messageStarted, h.length,
      Nat.le_of_lt hshort, fun hidle => ?_, fun _ _ => hbelow, fun _ => hbelow⟩
    exact absurd (hidle.symm.trans hfield) Bool.false_ne_true
  · rw [drainBytes_of_le hle]
    exact .finish rfl hbelow

/-- A byte string that may be absent. -/
theorem KeepsPlace.writeBytes (value : Option Bytes) :
    KeepsPlace (fun p => SentInOrder (fun p _ => p.Fresh) p (value.getD []))
      (writeBytes value) := by
  refine SentInOrder.keepsPlace (fun _ _ h => h) fun sink hfield hitems => ?_
  cases value with
  | none => exact .finish rfl (hitems.finished rfl)
  | some bs => exact drainBytes_inOrder hfield hitems

/-- An array of numbers. -/
theorem KeepsPlace.writeLongs (items : List Int64) :
    KeepsPlace (fun p => SentInOrder (fun p _ => p.Fresh) p items) (writeLongs (some items)) := by
  refine KeepsPlace.writeArray (fun _ _ h => h) (fun item => .put _) (fun item sink h => ?_)
    (some items)
  refine ⟨fun _ => ?_, fun _ => ?_⟩ <;> rw [put_stack] <;> exact h

/-! ## Nested messages -/

section

variable {R : Type} {write : R → Sink → Writing} {inOrder : Place → R → Prop}
  (hwrite : ∀ message, Continuable FrameStack.SameOuter (write message))
  (h : ∀ message, KeepsPlace (fun p => inOrder p message) (write message))
include hwrite h

/-- Coming to the end of a nested message, or stopping in it. -/
theorem KeepsPlace.writeNested (message : R) :
    KeepsPlace (fun p => inOrder p.nested message) (writeNested write message) := by
  intro sink hmessage
  have houter := (hwrite message).keeps { sink with stack := sink.stack.enter }
  have hcalled := h message { sink with stack := sink.stack.enter } hmessage
  refine ⟨fun hne => ?_, fun hadvance => ?_⟩
  · have hstopped := hcalled.stopped hne
    rw [← FrameStack.enter_leave houter] at hstopped
    have hleft : (write message { sink with stack := sink.stack.enter }).progress.isAdvance =
        false := eq_false_of_ne_true fun hadvance => hne (Progress.eq_advance hadvance)
    simp only [Wire.writeNested, hleft]
    exact hstopped
  · have hbelow := hcalled.finished hadvance
    simp only [Wire.writeNested] at hadvance ⊢
    rw [hadvance]
    exact hbelow.leave

/-- A message that may be absent. -/
theorem KeepsPlace.writeMessage (slot : Option R) :
    KeepsPlace (fun p => MessageSent inOrder p slot) (writeMessage write slot) := by
  intro sink hslot
  cases slot with
  | none =>
    have hstack : (Wire.writeMessage write none sink).sink.stack = sink.stack := put_stack _ _
    refine ⟨fun _ => ?_, fun _ => ?_⟩ <;> rw [hstack]
    · exact hslot
    · exact hslot.absent rfl
  | some message =>
    have hcalled := KeepsPlace.writeNested hwrite h message sink (hslot.nested message rfl)
    have hkeeps : sink.stack.SameFrame (Wire.writeNested write message sink).sink.stack :=
      (Continuable.writeNested message (hwrite message)).keeps sink
    refine ⟨fun hne => ?_, hcalled.finished⟩
    have htop : (Wire.writeNested write message sink).sink.stack.place.top = sink.stack.place.top :=
      hkeeps.top
    refine ⟨?_, ?_, ?_, ?_, fun message' hmessage => ?_, nofun⟩
    · exact (congrArg Frame.fieldStarted htop).trans hslot.fieldStarted
    · exact (congrArg Frame.messageStarted htop).trans hslot.messageStarted
    · exact (congrArg Frame.position htop).trans hslot.position
    · exact (congrArg Frame.length htop).trans hslot.length
    · rw [← Option.some.inj hmessage]
      exact hcalled.stopped hne

/-- An array of messages that may be absent. -/
theorem KeepsPlace.writeMessages
    (hfresh : ∀ (p : Place) message, p.Fresh → inOrder p.nested message)
    (value : Option (List R)) :
    KeepsPlace (fun p => SentInOrder (fun p item => inOrder p.nested item) p (value.getD []))
      (writeMessages write value) :=
  .writeArray hfresh (fun item => .writeNested item (hwrite item))
    (fun item => .writeNested hwrite h item) value

end

/-! ## Messages -/

/-- Accepting a header moves no place. -/
theorem SentInOrder.withHeader {A : Type} {element : Place → A → Prop} {p : Place} {items : List A}
    (h : SentInOrder element p items) (done : Bool) (flags : UInt8)
    (helement : ∀ item, element p item → element (p.withHeader done flags) item) :
    SentInOrder element (p.withHeader done flags) items :=
  ⟨h.messageStarted, h.length, h.position, fun hidle => (h.undeclared hidle).withHeader done flags,
    fun item hitem => helement item (h.current item hitem), h.finished⟩

/-- Accepting a header moves no place. -/
theorem MessageSent.withHeader {R : Type} {inOrder : Place → R → Prop} {p : Place}
    {slot : Option R} (h : MessageSent inOrder p slot) (done : Bool) (flags : UInt8) :
    MessageSent inOrder (p.withHeader done flags) slot :=
  ⟨h.fieldStarted, h.messageStarted, h.position, h.length, h.nested, h.absent⟩

/-- Accepting a header moves no place. -/
theorem Field.writesInOrder_withHeader {A : Type} (field : Field A) {p : Place} {slot : A}
    (done : Bool) (flags : UInt8) (h : field.WritesInOrder p slot) :
    field.WritesInOrder (p.withHeader done flags) slot := by
  cases field with
  | bytes => exact SentInOrder.withHeader h done flags fun _ h => h
  | text onNull => exact SentInOrder.withHeader h done flags fun _ h => h
  | longs => exact SentInOrder.withHeader h done flags fun _ h => h
  | optional layout => exact MessageSent.withHeader h done flags
  | required name layout => exact MessageSent.withHeader h done flags
  | array layout => exact SentInOrder.withHeader h done flags fun _ h => h
  | batch layout => exact SentInOrder.withHeader h done flags fun _ h => h
  | keys layout => exact SentInOrder.withHeader h done flags fun _ h => h
  | values selector value invocation =>
    unfold WritesInOrder at h ⊢
    split at h <;> exact SentInOrder.withHeader h done flags fun _ h => h
  | _ => exact Place.AtRest.withHeader h done flags

/-- Accepting a header moves no place. -/
theorem Fields.writesInOrder_withHeader (done : Bool) (flags : UInt8) {p : Place} : {S : Type} →
    (fields : Fields S) → {skip : Nat} → {slots : S} → fields.WritesInOrder skip p slots →
    fields.WritesInOrder skip (p.withHeader done flags) slots
  | _, .nil, _, _, h => Place.AtRest.withHeader h done flags
  | _, .cons field _, 0, _, h => field.writesInOrder_withHeader done flags h
  | _, .cons _ rest, _ + 1, _, h => rest.writesInOrder_withHeader done flags h

/-- Writing a header marks it as written and does nothing else to the frames. -/
theorem writeHeaderOnce_place (type : UInt16) (fieldCount : Nat) (flags : UInt8) (sink : Sink) :
    ∃ done, (writeHeaderOnce type fieldCount flags sink).sink.stack.place =
      sink.stack.place.withHeader done sink.stack.top.flags := by
  cases hdone : sink.stack.top.headerDone with
  | true =>
    rw [writeHeaderOnce_of_done sink hdone]
    exact ⟨true, by rw [← hdone]; rfl⟩
  | false =>
    rw [writeHeaderOnce_of_not_done sink hdone]
    rcases Nat.lt_or_ge sink.room (headerBytes type fieldCount flags).length with hshort | hle
    · rw [put_of_lt hshort]
      exact ⟨false, by rw [← hdone]; rfl⟩
    · rw [put_of_le hle]
      exact ⟨true, rfl⟩

/-- Fields whose writers keep them in order. A call that stops tells how far it came, and one that
completes them comes to the end of them. -/
def Fields.KeepsPlace {S : Type} (fields : Fields S) (slots : S) : Prop :=
  ∀ skip (sink : Sink), skip ≤ fields.count → fields.WritesInOrder skip sink.stack.place slots →
    let w := fields.write skip slots sink
    (w.progress ≠ .advance → ∃ more, w.sink.stack.top.state = sink.stack.top.state + more ∧
      skip + more ≤ fields.count ∧ fields.WritesInOrder (skip + more) w.sink.stack.place slots) ∧
    (w.progress = .advance →
      w.sink.stack.top.state + skip = sink.stack.top.state + fields.count ∧
        w.sink.stack.place.AtRest)

/-- One field more in front. -/
theorem Fields.keepsPlace_cons {A S : Type} {field : Field A} {rest : Fields S} {slots : A × S}
    (hfield : Wire.KeepsPlace (fun p => field.WritesInOrder p slots.1) (field.write slots.1))
    (hrest : rest.KeepsPlace slots.2) : (Fields.cons field rest).KeepsPlace slots := by
  intro skip sink hskip hslots
  cases skip with
  | succ skip =>
    obtain ⟨hstopped, hfinished⟩ := hrest skip sink (Nat.le_of_succ_le_succ hskip) hslots
    refine ⟨fun hne => ?_, fun hadvance => ?_⟩
    · obtain ⟨more, hstate, hmore, horder⟩ := hstopped hne
      refine ⟨more, hstate, ?_, ?_⟩
      · simp only [Fields.count]
        omega
      · rw [Nat.add_right_comm]
        exact horder
    · obtain ⟨hstate, hrest⟩ := hfinished hadvance
      refine ⟨?_, hrest⟩
      show (rest.write skip slots.2 sink).sink.stack.top.state + (skip + 1) =
        sink.stack.top.state + (rest.count + 1)
      omega
  | zero =>
    have hcalled := hfield sink hslots
    have hkeeps := (field.continuable slots.1).keeps sink
    simp only [Fields.write, Writing.andThen]
    rcases hw : field.write slots.1 sink with ⟨_ | _ | e, emitted, sink'⟩ <;>
      rw [hw] at hcalled hkeeps
    · -- the next field starts where nothing is under way
      have hbelow : sink'.stack.Fresh := hcalled.finished rfl
      have hnext : sink'.nextField.stack.top.state = sink.stack.top.state + 1 :=
        congrArg Nat.succ hkeeps.state
      obtain ⟨hstopped, hfinished⟩ := hrest 0 sink'.nextField (Nat.zero_le _)
        (rest.writesInOrder_of_atRest _ hbelow.nextField_atRest _)
      refine ⟨fun hne => ?_, fun hadvance => ?_⟩
      · obtain ⟨more, hstate, hmore, horder⟩ := hstopped hne
        refine ⟨more + 1, ?_, ?_, ?_⟩
        · show (rest.write 0 slots.2 sink'.nextField).sink.stack.top.state = _
          omega
        · simp only [Fields.count]
          omega
        · rw [Nat.zero_add] at horder ⊢
          exact horder
      · obtain ⟨hstate, hrest⟩ := hfinished hadvance
        refine ⟨?_, hrest⟩
        show (rest.write 0 slots.2 sink'.nextField).sink.stack.top.state + 0 =
          sink.stack.top.state + (rest.count + 1)
        omega
    all_goals
      have hstop := hcalled.stopped fun hcontra => by cases hcontra
      exact ⟨fun _ => ⟨0, hkeeps.state, Nat.zero_le _, hstop⟩, fun hcontra => by cases hcontra⟩

section

variable {S : Type} {type : UInt16} {fields : Fields S} {settle : S → Except CodecError Unit × S}
  {message : Record S}

/-- The fields of a message that is in order are all there is behind its header: once they are
complete their number is right. -/
theorem writeBody_eq {slots : S} (hfields : fields.KeepsPlace slots) {sink : Sink}
    (hcount : sink.stack.top.state ≤ fields.count)
    (h : fields.WritesInOrder sink.stack.top.state sink.stack.place slots) :
    writeBody type fields slots sink = fields.write sink.stack.top.state slots sink := by
  have hfinished := (hfields sink.stack.top.state sink hcount h).2
  simp only [writeBody, Fields.writeFrom, Nat.sub_zero]
  rcases hw : fields.write sink.stack.top.state slots sink with ⟨_ | _ | e, emitted, sink'⟩ <;>
    rw [hw] at hfinished
  · obtain ⟨hend, -⟩ := hfinished rfl
    replace hend : sink'.stack.top.state + sink.stack.top.state =
      sink.stack.top.state + fields.count := hend
    have hstate : sink'.stack.top.state = fields.count := by omega
    simp only [Writing.andThen_advance, Writing.after, Writing.stop, checkFieldCount,
      if_pos hstate, List.append_nil]
  all_goals rfl

/-- The fields of a message behind its header. -/
theorem writeBody_inOrder (hfields : fields.KeepsPlace message.slots) {sink : Sink}
    (h : (Layout.message type fields settle).WritesInOrder sink.stack.place message) :
    let w := writeBody type fields message.slots sink
    (w.progress ≠ .advance →
      (Layout.message type fields settle).WritesInOrder w.sink.stack.place message) ∧
    (w.progress = .advance →
      w.sink.stack.top.state = fields.count ∧ w.sink.stack.place.AtRest) := by
  obtain ⟨hcount, hslots⟩ := h
  replace hcount : sink.stack.top.state ≤ fields.count := hcount
  obtain ⟨hstopped, hfinished⟩ := hfields sink.stack.top.state sink hcount hslots
  rw [writeBody_eq hfields hcount hslots]
  refine ⟨fun hne => ?_, fun hadvance => ?_⟩
  · obtain ⟨more, hmore, hle, horder⟩ := hstopped hne
    rw [← hmore] at hle horder
    exact ⟨hle, horder⟩
  · obtain ⟨hend, hrest⟩ := hfinished hadvance
    exact ⟨by omega, hrest⟩

/-- What a call on a message leaves: a message that is in order where the call stopped, and at the
end of its fields nothing under way once it is complete. -/
theorem Layout.keepsPlace_message (hfields : fields.KeepsPlace message.slots) (sink : Sink)
    (h : (Layout.message type fields settle).WritesInOrder sink.stack.place message) :
    let w := (Layout.message type fields settle).write message sink
    (w.progress ≠ .advance →
      (Layout.message type fields settle).WritesInOrder w.sink.stack.place message) ∧
    (w.progress = .advance →
      w.sink.stack.top.state = fields.count ∧ w.sink.stack.place.AtRest) := by
  cases hready : fields.ready message.slots with
  | false =>
    have hwrite : (Layout.message type fields settle).write message sink =
        .stop (.failed .notMarshalled) sink := by
      simp only [Layout.write, hready, Bool.false_eq_true, if_false]
    rw [hwrite]
    exact ⟨fun _ => h, fun hcontra => by cases hcontra⟩
  | true =>
    rw [Layout.write_of_ready type settle hready]
    obtain ⟨done, hplace⟩ := writeHeaderOnce_place type fields.count message.flags sink
    have hheader : (Layout.message type fields settle).WritesInOrder
        (writeHeaderOnce type fields.count message.flags sink).sink.stack.place message := by
      rw [hplace]
      exact ⟨h.1, fields.writesInOrder_withHeader done _ h.2⟩
    unfold Writing.andThen
    split
    · exact writeBody_inOrder hfields hheader
    · next hshort =>
      exact ⟨fun _ => hheader, fun hadvance => absurd (by rw [hadvance]; rfl) hshort⟩

end

mutual
/-- Writing a message keeps it in order. -/
theorem Layout.keepsPlace : {R : Type} → (layout : Layout R) → (message : R) →
    KeepsPlace (fun p => layout.WritesInOrder p message) (layout.write message)
  | _, .message _ fields _, message => fun sink h => by
    obtain ⟨hstopped, hfinished⟩ :=
      Layout.keepsPlace_message (fields.keepsPlace message.slots) sink h
    exact ⟨hstopped, fun hadvance => (hfinished hadvance).2.deeper⟩
/-- Writing fields keeps them in order. -/
theorem Fields.keepsPlace : {S : Type} → (fields : Fields S) → (slots : S) →
    fields.KeepsPlace slots
  | _, .nil, _ => fun _ _ hskip h => by
    obtain rfl := Nat.le_zero.mp hskip
    exact ⟨fun hne => absurd rfl hne, fun _ => ⟨rfl, h⟩⟩
  | _, .cons field rest, slots =>
    Fields.keepsPlace_cons (field.keepsPlace slots.1) (rest.keepsPlace slots.2)
/-- Writing a field keeps it in order. -/
theorem Field.keepsPlace : {A : Type} → (field : Field A) → (slot : A) →
    KeepsPlace (fun p => field.WritesInOrder p slot) (field.write slot)
  | _, .flag, _ => .put _
  | _, .ordinal _ _ _ _, _ => .put _
  | _, .int32, _ => .put _
  | _, .int64, _ => .put _
  | _, .uint128, _ => .put _
  | _, .bytes, slot => .writeBytes slot
  | _, .text _, slot => .writeBytes (slot.text.map Bytes.ofText)
  | _, .longs, slot => .writeLongs slot
  | _, .optional layout, slot => .writeMessage layout.continuable layout.keepsPlace slot
  | _, .required _ layout, slot => .writeMessage layout.continuable layout.keepsPlace (some slot)
  | _, .array layout, slot =>
    .writeMessages layout.continuable layout.keepsPlace layout.writesInOrder_of_fresh slot
  | _, .batch layout, slot =>
    .writeMessages layout.continuable layout.keepsPlace
      layout.writesInOrder_of_fresh (some slot.settled)
  | _, .keys layout, slot =>
    .writeMessages layout.continuable layout.keepsPlace layout.writesInOrder_of_fresh slot.settled
  | _, .values _ value invocation, slot => by
    rcases hsettled : slot.settled with _ | items | items
    all_goals simp only [Field.WritesInOrder, Field.write, hsettled, KeepsPlace]
    · exact KeepsPlace.writeMessages value.continuable value.keepsPlace
        value.writesInOrder_of_fresh none
    · exact KeepsPlace.writeMessages value.continuable value.keepsPlace
        value.writesInOrder_of_fresh (some items)
    · exact KeepsPlace.writeMessages invocation.continuable invocation.keepsPlace
        invocation.writesInOrder_of_fresh (some items)
end

/-- A message that is complete is behind its fields. -/
theorem Layout.write_state_of_advance {R : Type} (layout : Layout R) {message : R} {sink : Sink}
    (h : layout.WritesInOrder sink.stack.place message)
    (hadvance : (layout.write message sink).progress = .advance) :
    (layout.write message sink).sink.stack.top.state = layout.fieldCount := by
  cases layout with
  | message type fields settle =>
    exact ((Layout.keepsPlace_message (fields.keepsPlace message.slots) sink h).2 hadvance).1

end Enlistment.Wire
