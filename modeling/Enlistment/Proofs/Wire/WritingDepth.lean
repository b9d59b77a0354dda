import Enlistment.Proofs.Wire.ResumedCalls
import Mathlib.Data.List.Forall2

/-!
# Frames inside a writing call

As for a reader, every call that a call on a message makes, at any depth, starts in order: with one
frame for each message around it, each at one of the fields of its message and no further in it
than the field is long. A message starts without any progress, unless it is the one in which its
field has stopped.
-/

namespace Enlistment.Wire

/-! ## Lengths of fields -/

/-- The number of octets, numbers or elements that a field writes behind its length. -/
def Field.extent : {A : Type} → Field A → A → Nat
  | _, .bytes, slot => (slot.getD []).length
  | _, .text _, slot => ((slot.text.map Bytes.ofText).getD []).length
  | _, .longs, slot => slot.length
  | _, .array _, slot => (slot.getD []).length
  | _, .batch _, slot => slot.settled.length
  | _, .keys _, slot => (slot.settled.getD []).length
  | _, .values _ _ _, slot =>
    match slot.settled with
    | none => 0
    | some (.inl items) => items.length
    | some (.inr items) => items.length
  | _, _, _ => 0

/-- The length of the field behind the first `skip`. -/
def Fields.extent : {S : Type} → Fields S → (skip : Nat) → S → Nat
  | _, .nil, _, _ => 0
  | _, .cons _ rest, skip + 1, slots => rest.extent skip slots.2
  | _, .cons field _, 0, slots => field.extent slots.1

/-- The length of a field of a message. -/
def Layout.extent : {R : Type} → Layout R → R → (index : Nat) → Nat
  | _, .message _ fields _, record, index => fields.extent index record.slots

/-- A field that is in order has not come further than it is long. -/
theorem Field.WritesInOrder.position_le_extent {A : Type} {field : Field A} {p : Place} {slot : A}
    (h : field.WritesInOrder p slot) : p.top.position ≤ field.extent slot := by
  have hrest : p.top.position = 0 → ∀ n, p.top.position ≤ n := fun hzero n => by
    rw [hzero]
    exact Nat.zero_le n
  cases field with
  | bytes => exact SentInOrder.position h
  | text onNull => exact SentInOrder.position h
  | longs => exact SentInOrder.position h
  | optional layout => exact hrest (MessageSent.position h) _
  | required name layout => exact hrest (MessageSent.position h) _
  | array layout => exact SentInOrder.position h
  | batch layout => exact SentInOrder.position h
  | keys layout => exact SentInOrder.position h
  | values selector value invocation =>
    rcases hsettled : slot.settled with _ | items | items <;>
      simp only [WritesInOrder, extent, hsettled] at h ⊢ <;> exact h.position
  | _ => exact hrest (Place.AtRest.position h) _

/-- The field that a message is at has not come further than it is long. -/
theorem Fields.position_le_extent {p : Place} : {S : Type} → (fields : Fields S) →
    {skip : Nat} → {slots : S} → fields.WritesInOrder skip p slots →
    p.top.position ≤ fields.extent skip slots
  | _, .nil, _, _, h => Nat.le_of_eq (Place.AtRest.position h)
  | _, .cons _ _, 0, _, h => Field.WritesInOrder.position_le_extent h
  | _, .cons _ rest, _ + 1, _, h => rest.position_le_extent h

/-! ## Calls on fields -/

/-- A call on a field of a message: it starts in order, below the same messages, and at the field
that its frame tells. -/
structure FieldWrite.Starts (outer : List Frame) (count : Nat) (extent : Nat → Nat)
    (c : FieldWrite) : Prop where
  order : c.field.WritesInOrder c.sink.stack.place c.slot
  outer : c.sink.stack.outer = outer
  state : c.sink.stack.top.state < count
  extent : extent c.sink.stack.top.state = c.field.extent c.slot

/-- The calls on fields start in order, each where the one before it has come to. -/
theorem Fields.writes_start : {S : Type} → (fields : Fields S) → (skip : Nat) → (slots : S) →
    (sink : Sink) → fields.WritesInOrder skip sink.stack.place slots →
    ∀ c ∈ fields.writes skip slots sink, c.field.WritesInOrder c.sink.stack.place c.slot ∧
      c.sink.stack.outer = sink.stack.outer ∧
      ∃ more, c.sink.stack.top.state = sink.stack.top.state + more ∧
        skip + more < fields.count ∧ fields.extent (skip + more) slots = c.field.extent c.slot
  | _, .nil, _, _, _, _, _, hc => absurd hc List.not_mem_nil
  | _, .cons field rest, skip + 1, slots, sink, h, c, hc => by
    obtain ⟨horder, houter, more, hstate, hlt, hextent⟩ :=
      rest.writes_start skip slots.2 sink h c hc
    refine ⟨horder, houter, more, hstate, ?_⟩
    rw [Nat.add_right_comm]
    exact ⟨Nat.succ_lt_succ hlt, hextent⟩
  | _, .cons field rest, 0, slots, sink, h, c, hc => by
    have hkeeps := (field.continuable slots.1).keeps sink
    have hcalled := field.keepsPlace slots.1 sink h
    rcases List.mem_cons.mp hc with rfl | hc
    · exact ⟨h, rfl, 0, rfl, Nat.succ_pos _, rfl⟩
    · split at hc
      · next hadvance =>
        have hbelow := hcalled.finished (Progress.eq_advance hadvance)
        obtain ⟨horder, houter, more, hstate, hlt, hextent⟩ := rest.writes_start 0 slots.2
          (field.write slots.1 sink).sink.nextField
          (rest.writesInOrder_of_atRest _ hbelow.nextField_atRest _) c hc
        refine ⟨horder, houter.trans hkeeps.outer, more + 1, ?_, ?_⟩
        · rw [hstate]
          show (field.write slots.1 sink).sink.stack.top.state + 1 + more = _
          rw [hkeeps.state]
          omega
        · rw [Nat.zero_add] at hlt hextent ⊢
          exact ⟨Nat.succ_lt_succ hlt, hextent⟩
      · cases hc

/-- The calls that a call on a message makes on its fields start in order. -/
theorem Layout.fieldWrites_start {R : Type} (layout : Layout R) {message : R} {sink : Sink}
    (h : layout.WritesInOrder sink.stack.place message) :
    ∀ c ∈ layout.fieldWrites message sink,
      c.Starts sink.stack.outer layout.fieldCount (layout.extent message) := by
  intro c hc
  cases layout with
  | message type fields settle =>
    obtain ⟨done, hplace⟩ := writeHeaderOnce_place type fields.count message.flags sink
    have hkeeps := (Continuable.writeHeaderOnce type fields.count message.flags).keeps sink
    have hslots := fields.writesInOrder_withHeader done sink.stack.top.flags h.2
    have hstate : (writeHeaderOnce type fields.count message.flags sink).sink.stack.top.state =
        sink.stack.top.state := congrArg (fun p => p.top.state) hplace
    rw [← hplace] at hslots
    simp only [fieldWrites] at hc
    split at hc
    · rw [hstate] at hc
      obtain ⟨horder, houter, more, hmore, hlt, hextent⟩ :=
        fields.writes_start _ message.slots _ hslots c hc
      rw [hstate] at hmore
      refine ⟨horder, houter.trans hkeeps, ?_, ?_⟩ <;> rw [hmore]
      · exact hlt
      · exact hextent
    · cases hc

/-! ## Calls on nested messages -/

/-- The calls on the messages of a field that is at the given frames and of the given length. Each
starts in order with the frame of the field above it. The first one goes on at the frames below,
and all others start afresh. -/
structure NestedWrites (s : FrameStack) (extent : Nat) (calls : List WriteCall) : Prop where
  order : ∀ e ∈ calls, e.layout.WritesInOrder e.sink.stack.place e.message
  outer : ∀ e ∈ calls, ∃ f, e.sink.stack.outer = f :: s.outer ∧ f.state = s.top.state ∧
    f.position ≤ extent
  first : ∀ e, calls.head? = some e → e.sink.stack.place = s.place.nested
  fresh : ∀ e ∈ calls.tail, e.sink.stack.AtMessage

namespace NestedWrites

variable {s s' : FrameStack} {extent : Nat} {calls : List WriteCall}

/-- A field may make no calls. -/
theorem nil : NestedWrites s extent [] := ⟨nofun, nofun, nofun, nofun⟩

/-- Where nothing is suspended below a field, all messages in it start afresh. -/
theorem all_fresh (h : NestedWrites s extent calls) (hbelow : s.Fresh) :
    ∀ e ∈ calls, e.sink.stack.AtMessage := by
  intro e he
  cases calls with
  | nil => cases he
  | cons first rest =>
    rcases List.mem_cons.mp he with rfl | he
    · have hplace : e.sink.stack.place = s.enter.place := h.first e rfl
      have hdeeper : e.sink.stack.deeper = s.enter.deeper := congrArg Place.deeper hplace
      have hmessage : s.enter.AtMessage := FrameStack.Fresh.enter hbelow
      exact ⟨(congrArg Place.top hplace).trans hmessage.top,
        fun f hf => hmessage.fresh f (hdeeper ▸ hf)⟩
    · exact h.fresh e he

/-- The call on one message, and those behind it, which start afresh. -/
theorem cons {R : Type} {layout : Layout R} {message : R} {sink : Sink}
    (h : layout.WritesInOrder sink.stack.place.nested message)
    (hposition : sink.stack.top.position ≤ extent) (hrest : NestedWrites s extent calls)
    (houter : s.outer = sink.stack.outer) (hstate : s.top.state = sink.stack.top.state)
    (hbelow : s.Fresh) :
    NestedWrites sink.stack extent (layout.nestedWrite message sink :: calls) := by
  refine ⟨List.forall_mem_cons.mpr ⟨h, hrest.order⟩, List.forall_mem_cons.mpr
    ⟨⟨sink.stack.top, rfl, rfl, hposition⟩, fun e he => ?_⟩, fun e he => ?_, ?_⟩
  · rw [← houter, ← hstate]
    exact hrest.outer e he
  · obtain rfl := Option.some.inj he
    rfl
  · exact hrest.all_fresh hbelow

/-- The call on one message. -/
theorem single {R : Type} {layout : Layout R} {message : R} {sink : Sink}
    (h : layout.WritesInOrder sink.stack.place.nested message)
    (hposition : sink.stack.top.position ≤ extent) :
    NestedWrites sink.stack extent [layout.nestedWrite message sink] := by
  refine ⟨List.forall_mem_singleton.mpr h, List.forall_mem_singleton.mpr
    ⟨sink.stack.top, rfl, rfl, hposition⟩, fun e he => ?_, nofun⟩
  obtain rfl := Option.some.inj he
  rfl

end NestedWrites

section

variable {R : Type} (layout : Layout R)

/-- The calls on the elements of an array from the one at the position on. The induction is on
these elements: a call that completes one leaves the array in order at the next one. -/
theorem elementWrites_nested {items : List R} (left : List R) {sink : Sink}
    (hleft : items.drop sink.stack.top.position = left)
    (hfield : sink.stack.top.fieldStarted = true)
    (hitems : SentInOrder (fun p item => layout.WritesInOrder p.nested item) sink.stack.place
      items) :
    NestedWrites sink.stack items.length ((elementWrites (writeNested layout.write) left sink).map
      fun p => layout.nestedWrite p.1 p.2) := by
  induction left generalizing sink with
  | nil => exact .nil
  | cons item rest ih =>
    have hitem : items[sink.stack.top.position]? = some item := by
      rw [← List.head?_drop, hleft]
      rfl
    have hlt : sink.stack.top.position < items.length := (List.getElem?_eq_some_iff.mp hitem).1
    have hcurrent := hitems.current item hitem
    have hwrite : Continuable FrameStack.SameFrame (writeNested layout.write item) :=
      .writeNested item (layout.continuable item)
    have hkeeps := hwrite.keeps sink
    have hcalled := KeepsPlace.writeNested layout.continuable layout.keepsPlace item sink hcurrent
    simp only [elementWrites, List.map_cons]
    split
    · next hadvance =>
      have hbelow := hcalled.finished (Progress.eq_advance hadvance)
      have hnext := hitems.next layout.writesInOrder_of_fresh hfield hlt hkeeps.top hbelow
      refine .cons hcurrent hitems.position (ih ?_ ?_ hnext) hkeeps.outer ?_ hbelow
      · show items.drop ((writeNested layout.write item sink).sink.stack.top.position + 1) = rest
        rw [hkeeps.top, ← List.tail_drop, hleft, List.tail_cons]
      · exact (congrArg Frame.fieldStarted hkeeps.top).trans hfield
      · show (writeNested layout.write item sink).sink.stack.top.state = sink.stack.top.state
        rw [hkeeps.top]
    · exact .single hcurrent hitems.position

/-- The calls on the elements of an array. -/
theorem Layout.arrayWrites_nested (slot : Option (List R)) {sink : Sink}
    (h : SentInOrder (fun p item => layout.WritesInOrder p.nested item) sink.stack.place
      (slot.getD [])) :
    NestedWrites sink.stack (slot.getD []).length (layout.arrayWrites slot sink) := by
  unfold arrayWrites
  cases hsink : contentsSink (slot.map List.length) sink with
  | none => exact .nil
  | some sink' =>
    simp only [Option.toList_some, List.flatMap_singleton]
    obtain ⟨hstarted, rfl⟩ | ⟨hidle, hstack⟩ := contentsSink_cases hsink
    · exact elementWrites_nested layout _ rfl hstarted h
    · have hitems := h.start layout.writesInOrder_of_fresh hidle
      rw [← hstack] at hitems
      have hcalls := elementWrites_nested layout _ rfl (by rw [hstack]; rfl) hitems
      refine ⟨hcalls.order, fun e he => ?_, fun e he => ?_, hcalls.fresh⟩
      · obtain ⟨f, hf, hstate, hle⟩ := hcalls.outer e he
        rw [hstack] at hf hstate
        exact ⟨f, hf, hstate, hle⟩
      · rw [hcalls.first e he, hstack]
        rfl

end

/-- The calls on the messages of a field that is in order. -/
theorem Field.messageWrites_nested {A : Type} (field : Field A) {slot : A} {sink : Sink}
    (h : field.WritesInOrder sink.stack.place slot) :
    NestedWrites sink.stack (field.extent slot) (field.messageWrites slot sink) := by
  have hposition : sink.stack.top.position ≤ field.extent slot :=
    Field.WritesInOrder.position_le_extent h
  cases field with
  | optional layout =>
    cases slot with
    | none => exact .nil
    | some message => exact .single (MessageSent.nested h message rfl) hposition
  | required name layout => exact .single (MessageSent.nested h slot rfl) hposition
  | array layout => exact layout.arrayWrites_nested slot h
  | batch layout => exact layout.arrayWrites_nested (some slot.settled) h
  | keys layout => exact layout.arrayWrites_nested slot.settled h
  | values selector value invocation =>
    rcases hsettled : slot.settled with _ | items | items <;>
      simp only [WritesInOrder, messageWrites, extent, hsettled] at h ⊢
    · exact .nil
    · exact value.arrayWrites_nested (some items) h
    · exact invocation.arrayWrites_nested (some items) h
  | _ => exact .nil

/-! ## Calls at any depth -/

namespace WriteCall

/-- Whether a message has been written in order up to where a call on it starts. -/
def InOrder (c : WriteCall) : Prop := c.layout.WritesInOrder c.sink.stack.place c.message

/-- The frame of a message around a call: the message is at one of its fields, and no further in
it than the field is long. -/
structure Surrounds (c : WriteCall) (f : Frame) : Prop where
  state : f.state < c.layout.fieldCount
  position : f.position ≤ c.layout.extent c.message f.state

/-- A call within a call that starts in order does so, too, below one frame for each message around
it. The induction goes down one message at a time. -/
theorem Within.starts {c e : WriteCall} {path : List WriteCall} (h : c.Within path e)
    (hc : c.InOrder) (houter : c.sink.stack.outer = []) :
    e.InOrder ∧ List.Forall₂ Surrounds path e.sink.stack.outer := by
  induction h with
  | self => exact ⟨hc, houter ▸ .nil⟩
  | @nested path outer inner field _ hfield hinner ih =>
    obtain ⟨horder, hsurrounds⟩ := ih
    have hstart := outer.layout.fieldWrites_start horder field hfield
    have hcalls := field.field.messageWrites_nested hstart.order
    obtain ⟨f, hf, hstate, hposition⟩ := hcalls.outer inner hinner
    refine ⟨hcalls.order inner hinner, ?_⟩
    rw [hf, hstart.outer]
    refine .cons ⟨?_, ?_⟩ hsurrounds <;> rw [hstate]
    · exact hstart.state
    · rwa [hstart.extent]

/-- What the frames are like during a call on a message that is made within others. -/
structure KeepsFrames (path : List WriteCall) (c : WriteCall) : Prop where
  /-- The call starts at the depth of its message. -/
  depth : c.sink.stack.depth = path.length
  /-- There is a frame for each message around it. -/
  surrounded : List.Forall₂ Surrounds path c.sink.stack.outer
  /-- Its own frame, and the ones below it, are those of the message as far as it is out. -/
  order : c.InOrder
  state : c.sink.stack.top.state ≤ c.layout.fieldCount
  position : c.sink.stack.top.position ≤ c.layout.extent c.message c.sink.stack.top.state
  /-- The call comes to each field in order, at its own depth. -/
  fields : ∀ field ∈ c.fields,
    field.Starts c.sink.stack.outer c.layout.fieldCount (c.layout.extent c.message)
  /-- No message in a field starts with the progress of another one. -/
  messages : ∀ field ∈ c.fields,
    NestedWrites field.sink.stack (field.field.extent field.slot) field.messages
  /-- The call ends at the depth of its message. -/
  ends : c.writing.sink.stack.depth = path.length
  /-- A message that stops is in order for the next call. -/
  stopped : c.writing.progress ≠ .advance → ∀ room, (c.again room).InOrder
  /-- The next call on it comes first to the field in which it has stopped. -/
  field_again : c.writing.progress ≠ .advance → ∀ field, c.fields.getLast? = some field →
    ∀ room, (c.again room).fields.head? = some (field.again room)
  /-- The next call on a field comes first to the message in which the field has stopped. -/
  message_again : ∀ field ∈ c.fields, field.writing.progress ≠ .advance →
    ∀ e, field.messages.getLast? = some e →
      ∀ room, (field.again room).messages.head? = some (e.again room)
  /-- A message that is complete leaves nothing in its frame and those below. -/
  finished : c.writing.progress = .advance →
    c.writing.sink.stack.top.state = c.layout.fieldCount ∧
      (c.writing.sink.stack.leave true).Fresh

/-- A call that is in order is at one of the fields of its message or behind them, and no further
in its field than it is long. -/
theorem InOrder.bounds {c : WriteCall} (h : c.InOrder) :
    c.sink.stack.top.state ≤ c.layout.fieldCount ∧
      c.sink.stack.top.position ≤ c.layout.extent c.message c.sink.stack.top.state := by
  obtain ⟨layout, message, sink⟩ := c
  cases layout with
  | message type fields settle =>
    have hposition := fields.position_le_extent h.2
    exact ⟨h.1, hposition⟩

/-- During every call within a call that starts in order, the frames are in order. -/
theorem Within.keepsFrames {c e : WriteCall} {path : List WriteCall} (h : c.Within path e)
    (hc : c.InOrder) (houter : c.sink.stack.outer = []) : e.KeepsFrames path := by
  obtain ⟨horder, hsurrounded⟩ := h.starts hc houter
  have hdepth : e.sink.stack.depth = path.length := hsurrounded.length_eq.symm
  have hfields := e.layout.fieldWrites_start horder
  have hkeeps := (e.layout.continuable e.message).keeps e.sink
  have hwrite := e.layout.keepsPlace e.message e.sink horder
  refine ⟨hdepth, hsurrounded, horder, horder.bounds.1, horder.bounds.2, hfields,
    fun field hfield => field.field.messageWrites_nested (hfields field hfield).order, ?_,
    fun hne _ => hwrite.stopped hne,
    fun hne field hlast => e.layout.fieldWrites_again horder hne hlast,
    fun field _ hne inner hlast => field.field.messageWrites_again hne hlast,
    fun hadvance => ⟨?_, (hwrite.finished hadvance).leave⟩⟩
  · exact (congrArg List.length hkeeps).trans hdepth
  · exact e.layout.write_state_of_advance horder hadvance

end WriteCall

end Enlistment.Wire
