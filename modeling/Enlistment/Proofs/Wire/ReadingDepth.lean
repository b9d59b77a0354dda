import Enlistment.Proofs.Wire.ResumedCalls
import Mathlib.Data.List.Forall2

/-!
# Frames inside a call

Every call that a call on a message makes, at any depth, starts in order: with one frame for each
message around it, each at one of the fields of its message and no further in it than declared.
A message starts without any progress, unless it is the one at which its field was suspended.
-/

namespace Enlistment.Wire

variable {maxLength : Nat}

/-! ## Frames of a field -/

/-- The number of octets, numbers or elements that have been filled into a slot, if the contents
of the field come behind a length. -/
def Field.filled : {A : Type} → Field A → (tag : Int8) → A → Option Nat
  | _, .bytes, _, slot => slot.map List.length
  | _, .text _, _, slot => slot.staged.map List.length
  | _, .longs, _, slot => some slot.length
  | _, .array _, _, slot => slot.map List.length
  | _, .batch _, _, slot => slot.staged.map List.length
  | _, .keys _, _, slot => slot.inbound.map List.length
  | _, .values selector _ _, tag, slot =>
    if tag = selector then slot.inboundInvocations.map List.length
    else slot.inboundValues.map List.length
  | _, _, _, _ => none

/-- A field that is at rest has not come further than it is long. -/
theorem Place.AtRest.position_le {p : Place} (h : p.AtRest) : p.top.position ≤ p.top.length := by
  rw [h.position]
  exact Nat.zero_le _

/-- Octets are not counted in the frame. -/
theorem SizedInOrder.position_le {A : Type} {size : A → Nat} {p : Place} {slot : Option A}
    (h : SizedInOrder size p slot) : p.top.position ≤ p.top.length := by
  rw [h.position]
  exact Nat.zero_le _

/-- A message that may be absent is not counted in the frame. -/
theorem MessageInOrder.position_le {R : Type} {inOrder : Place → R → Prop} {p : Place}
    {slot : Option R} (h : MessageInOrder inOrder p slot) : p.top.position ≤ p.top.length := by
  rw [h.position]
  exact Nat.zero_le _

/-- No more elements are counted than were declared. -/
theorem ItemsInOrder.position_le {R : Type} {inOrder : Place → R → Prop} {p : Place}
    {slot : Option (List R)} (h : ItemsInOrder inOrder p slot) :
    p.top.position ≤ p.top.length := by
  cases hfield : p.top.fieldStarted with
  | false => exact (h.undeclared hfield).position_le
  | true =>
    obtain ⟨items, -, hcounted, hle⟩ := h.counted hfield
    omega

/-- A field that is in order has not come further than it is long. -/
theorem Field.ReadsInOrder.position_le {A : Type} {field : Field A} {tag : Int8} {p : Place}
    {slot : A} (h : field.ReadsInOrder tag p slot) : p.top.position ≤ p.top.length := by
  cases field with
  | bytes => exact SizedInOrder.position_le h
  | text onNull => exact SizedInOrder.position_le h
  | longs => exact SizedInOrder.position_le h
  | optional layout => exact MessageInOrder.position_le h
  | required name layout => exact MessageInOrder.position_le h
  | array layout => exact ItemsInOrder.position_le h
  | batch layout => exact ItemsInOrder.position_le h
  | keys layout => exact ItemsInOrder.position_le h
  | values selector value invocation =>
    unfold ReadsInOrder at h
    split at h
    · exact h.position_le
    · exact h.position_le
  | _ => exact Place.AtRest.position_le h

/-- The field that a message is at has not come further than it is long. -/
theorem Fields.position_le {p : Place} : {S : Type} → (fields : Fields S) →
    {tag : Int8} → {skip : Nat} → {slots : S} → fields.ReadsInOrder tag skip p slots →
    p.top.position ≤ p.top.length
  | _, .nil, _, _, _, h => Place.AtRest.position_le h
  | _, .cons _ _, _, 0, _, h => Field.ReadsInOrder.position_le h
  | _, .cons _ rest, _, _ + 1, _, h => rest.position_le h

/-- What has been filled in is within the declared length. -/
theorem Field.ReadsInOrder.filled_le {A : Type} {field : Field A} {tag : Int8} {p : Place}
    {slot : A} (h : field.ReadsInOrder tag p slot) (hstarted : p.top.fieldStarted = true) :
    ∃ n, field.filled tag slot = some n ∧ n ≤ p.top.length := by
  have hrest : ∀ {P : Prop}, p.AtRest → P := fun h =>
    absurd (h.fieldStarted.symm.trans hstarted) Bool.false_ne_true
  have hsized : ∀ {B : Type} {slot : Option (List B)}, SizedInOrder List.length p slot →
      ∃ n, slot.map List.length = some n ∧ n ≤ p.top.length := by
    intro B slot h
    obtain ⟨bs, rfl, hle⟩ := h.filled hstarted
    exact ⟨_, rfl, hle⟩
  have hmessage : ∀ {P : Prop} {R : Type} {inOrder : Place → R → Prop} {slot : Option R},
      MessageInOrder inOrder p slot → P := fun h =>
    absurd (h.fieldStarted.symm.trans hstarted) Bool.false_ne_true
  have hitems : ∀ {R : Type} {inOrder : Place → R → Prop} {slot : Option (List R)},
      ItemsInOrder inOrder p slot →
        ∃ n, slot.map List.length = some n ∧ n ≤ p.top.length := by
    intro R inOrder slot h
    obtain ⟨items, rfl, -, hle⟩ := h.counted hstarted
    exact ⟨_, rfl, hle⟩
  cases field with
  | bytes => exact hsized h
  | text onNull => exact hsized h
  | longs => exact hsized h
  | optional layout => exact hmessage h
  | required name layout => exact hmessage h
  | array layout => exact hitems h
  | batch layout => exact hitems h
  | keys layout => exact hitems h
  | values selector value invocation =>
    simp only [ReadsInOrder, filled] at h ⊢
    split
    · next htag => exact hitems (by rwa [if_pos htag] at h)
    · next htag => exact hitems (by rwa [if_neg htag] at h)
  | _ => exact hrest h

/-! ## Calls on fields -/

/-- A call on a field of a message: it starts in order, below the same messages, and at one of the
first `count` fields. -/
structure FieldCall.Starts (outer : List Frame) (count : Nat) (c : FieldCall) : Prop where
  order : c.field.ReadsInOrder c.tag c.source.stack.place c.slot
  outer : c.source.stack.outer = outer
  state : c.source.stack.top.state < count

/-- The calls on fields start in order, each where the one before it has come to. -/
theorem Fields.calls_start : {S : Type} → (fields : Fields S) → (tag : Int8) → (skip : Nat) →
    (slots : S) → (src : Source) → fields.ReadsInOrder tag skip src.stack.place slots →
    ∀ c ∈ fields.calls maxLength tag skip slots src,
      c.Starts src.stack.outer (src.stack.top.state + (fields.count - skip))
  | _, .nil, _, _, _, _, _, _, hc => absurd hc List.not_mem_nil
  | _, .cons field rest, tag, skip + 1, slots, src, h, c, hc => by
    have hstart := rest.calls_start (field.tag slots.1 tag) skip slots.2 src h c hc
    rwa [count, Nat.add_sub_add_right]
  | _, .cons field rest, tag, 0, slots, src, h, c, hc => by
    have hkeeps := (field.resumable maxLength tag).keeps slots.1 src
    have hslot := field.keepsOrder maxLength tag slots.1 src h
    rcases List.mem_cons.mp hc with rfl | hc
    · refine ⟨h, rfl, ?_⟩
      simp only [count]
      omega
    · simp only at hc
      split at hc
      · next hadvance =>
        have hfresh := hslot.finished (Progress.eq_advance hadvance)
        obtain ⟨horder, houter, hstate⟩ := rest.calls_start _ 0 slots.2
          { (field.read maxLength tag slots.1 src).source with
            stack := (field.read maxLength tag slots.1 src).source.stack.nextField }
          (rest.readsInOrder_of_atRest _ _ hfresh.nextField_atRest _) c hc
        refine ⟨horder, houter.trans hkeeps.outer, ?_⟩
        replace hstate : c.source.stack.top.state <
          (field.read maxLength tag slots.1 src).source.stack.top.state + 1 + (rest.count - 0) :=
          hstate
        rw [hkeeps.state] at hstate
        simp only [count]
        omega
      · cases hc

/-- The calls that a call on a message makes on its fields start in order. -/
theorem Layout.fieldCalls_start {R : Type} (layout : Layout R) {message : R} {src : Source}
    (h : layout.ReadsInOrder src.stack.place message) :
    ∀ c ∈ layout.fieldCalls maxLength message src, c.Starts src.stack.outer layout.fieldCount := by
  intro c hc
  cases layout with
  | message type fields settle =>
    obtain ⟨hcount, hslots⟩ := h
    have hstate := readHeader_state type fields.count src
    have houter := (readHeader_stack type fields.count src).1
    simp only [fieldCalls] at hc
    split at hc
    · rw [hstate] at hc
      obtain ⟨horder, houter', hlt⟩ := fields.calls_start (-1) src.stack.top.state message.slots
        (readHeader type fields.count src).source (readHeader_inOrder _ _ hslots) c hc
      refine ⟨horder, houter'.trans houter, ?_⟩
      replace hcount : src.stack.top.state ≤ fields.count := hcount
      rw [hstate] at hlt
      show c.source.stack.top.state < fields.count
      omega
    · cases hc

/-! ## Calls on nested messages -/

/-- The calls on the messages of a field that is at the given frames. Each starts in order with the
frame of the field above it, no further in the field than it is long. The first call goes on with
the message at which the field was suspended, if there is one, and all others start afresh. -/
structure NestedCalls (s : FrameStack) (calls : List ReadCall) : Prop where
  order : ∀ e ∈ calls, e.layout.ReadsInOrder e.source.stack.place e.message
  outer : ∀ e ∈ calls, ∃ f, e.source.stack.outer = f :: s.outer ∧ f.state = s.top.state ∧
    f.position ≤ f.length
  fresh : s.top.messageStarted = false → ∀ e ∈ calls, e.Fresh
  resumed : s.top.messageStarted = true → (∀ e ∈ calls.tail, e.Fresh) ∧
    ∀ e, calls.head? = some e → e.source.stack = s.enter

namespace NestedCalls

variable {s s' : FrameStack} {calls : List ReadCall}

/-- A field may make no calls. -/
theorem nil : NestedCalls s [] :=
  ⟨nofun, nofun, fun _ => nofun, fun _ => ⟨nofun, nofun⟩⟩

/-- Declaring the length of a field announces no message in it. -/
theorem of_declared (h : NestedCalls s' calls) (houter : s'.outer = s.outer)
    (hstate : s'.top.state = s.top.state)
    (hmessage : s'.top.messageStarted = s.top.messageStarted)
    (hstack : s.top.messageStarted = true → s' = s) : NestedCalls s calls := by
  refine ⟨h.order, fun e he => ?_, fun hidle => h.fresh (hmessage.trans hidle),
    fun hstarted => ?_⟩
  · obtain ⟨f, hf, hfstate, hposition⟩ := h.outer e he
    exact ⟨f, hf.trans (by rw [houter]), hfstate.trans hstate, hposition⟩
  · rw [← hstack hstarted]
    exact h.resumed (hmessage.trans hstarted)

end NestedCalls

/-- The message that is created for a type is one of which nothing has been read. -/
theorem Layout.create_eq_blank {R : Type} {layout : Layout R} {type : UInt16} {message : R}
    (h : layout.create type = some message) : message = layout.blank := by
  unfold create at h
  split at h
  · exact (Option.some.inj h).symm
  · cases h

section

variable {R : Type} (layout : Layout R)

/-- The call on a nested message that a call on its field comes to, and those behind it. -/
theorem NestedCalls.cons {slot : Option R} {src src' : Source} {message : R}
    {calls : List ReadCall} (h : NestedInOrder layout.ReadsInOrder src.stack.place slot)
    (hposition : src.stack.top.position ≤ src.stack.top.length)
    (hnested : nestedMessage layout.create slot src = some (message, src'))
    (horder : ∀ e ∈ calls, e.layout.ReadsInOrder e.source.stack.place e.message)
    (houter : ∀ e ∈ calls, ∃ f, e.source.stack.outer = f :: src.stack.outer ∧
      f.state = src.stack.top.state ∧ f.position ≤ f.length)
    (hfresh : ∀ e ∈ calls, e.Fresh) :
    NestedCalls src.stack (layout.enter message src' :: calls) := by
  obtain ⟨hstack, hmessage⟩ := h.nestedMessage layout.readsInOrder_of_atMessage hnested
  refine ⟨List.forall_mem_cons.mpr ⟨hmessage, horder⟩, List.forall_mem_cons.mpr ⟨?_, houter⟩,
    fun hidle => List.forall_mem_cons.mpr ⟨?_, hfresh⟩, fun hstarted => ⟨hfresh, ?_⟩⟩
  · refine ⟨src'.stack.top, ?_, ?_, ?_⟩
    · show src'.stack.top :: src'.stack.outer = src'.stack.top :: src.stack.outer
      rw [hstack]
      rfl
    · rw [hstack]
      rfl
    · rw [hstack]
      exact hposition
  · obtain ⟨hcontra, -⟩ | ⟨-, ⟨type, hcreate⟩, rfl⟩ := nestedMessage_cases hnested
    · exact absurd (hidle.symm.trans hcontra) Bool.false_ne_true
    · have hwaiting : src.stack.Fresh := h.waiting hidle
      exact ⟨Layout.create_eq_blank hcreate, FrameStack.Fresh.enter hwaiting⟩
  · intro e he
    obtain rfl := Option.some.inj he
    show src'.stack.enter = src.stack.enter
    rw [hstack, FrameStack.modifyTop, ← hstarted]

/-- The only call that a call on a field comes to. -/
theorem NestedCalls.single {slot : Option R} {src src' : Source} {message : R}
    (h : NestedInOrder layout.ReadsInOrder src.stack.place slot)
    (hposition : src.stack.top.position ≤ src.stack.top.length)
    (hnested : nestedMessage layout.create slot src = some (message, src')) :
    NestedCalls src.stack [layout.enter message src'] :=
  .cons layout h hposition hnested nofun nofun nofun

/-- The call on a single message. -/
theorem Layout.messageCalls_nested {slot : Option R} {src : Source}
    (h : MessageInOrder layout.ReadsInOrder src.stack.place slot) :
    NestedCalls src.stack (layout.messageCalls slot src) := by
  unfold messageCalls
  cases hnested : nestedMessage layout.create slot src with
  | none => exact .nil
  | some nested => exact .single layout h.toNestedInOrder h.position_le hnested

/-- Once an element is complete, no element is announced. -/
theorem readElement_advance {create : UInt16 → Option R} {read : R → Source → Reading R}
    {items : List R} {src : Source} (h : (readElement create read items src).progress = .advance) :
    (readElement create read items src).source.stack.top.messageStarted = false := by
  cases hnested : nestedMessage create items.getLast? src with
  | none =>
    obtain ⟨progress, hne, -, hidle⟩ := readElement_of_idle hnested
    rw [hidle] at h
    exact absurd h hne
  | some nested =>
    rw [readElement_of_nested read hnested] at h ⊢
    simp only [resumeElement, List.getLast?_concat] at h ⊢
    rw [h]
    rfl

/-- The calls on the elements of an array. The induction is on the number of elements to come: a
call that completes an element leaves the array in order for the next one. -/
theorem elementMessages_nested (count : Nat) {items : List R} {src : Source}
    (hcount : count = src.stack.top.length - src.stack.top.position)
    (hfield : src.stack.top.fieldStarted = true)
    (hitems : ItemsInOrder layout.ReadsInOrder src.stack.place (some items)) :
    NestedCalls src.stack ((elementMessages layout.create (layout.read maxLength) count items
      src).map fun p => layout.enter p.1 p.2) := by
  induction count generalizing items src with
  | zero => exact .nil
  | succ count ih =>
    have hread := layout.resumable maxLength
    have helement := readElement_inOrder hread (layout.keepsOrder maxLength)
      layout.readsInOrder_of_atMessage layout.create hfield (by omega) hitems
    have hparts : Resumable FrameStack.SameField
      (readElement layout.create (layout.read maxLength)) := .readElement hread
    have hkeeps := hparts.keeps items src
    have hposition := readElement_position layout.create hread items src
    simp only [elementMessages]
    cases hnested : nestedMessage layout.create items.getLast? src with
    | none =>
      obtain ⟨progress, hne, -, hidle⟩ := readElement_of_idle hnested
      simp only [hidle, Option.toList_none, List.nil_append]
      rw [if_neg fun hcontra => hne (Progress.eq_advance hcontra)]
      exact .nil
    | some nested =>
      obtain ⟨item, src'⟩ := nested
      simp only [Option.toList_some, List.singleton_append, List.map_cons]
      rcases hr : readElement layout.create (layout.read maxLength) items src with
        ⟨_ | _ | e, items', src''⟩ <;> rw [hr] at helement hkeeps hposition
      · have hidle : src''.stack.top.messageStarted = false := by
          have hadvance := congrArg Reading.progress hr
          have hidle := readElement_advance hadvance
          rwa [hr] at hidle
        have hlength : src''.stack.top.length = src.stack.top.length := hkeeps.length
        have hposition : src''.stack.top.position = src.stack.top.position + 1 := hposition
        have hcount' : count = src''.stack.top.length - src''.stack.top.position := by omega
        have hrest := ih hcount' (hkeeps.fieldStarted.trans hfield)
          (helement fun _ hcontra => by cases hcontra)
        refine .cons layout hitems.last hitems.position_le hnested hrest.order (fun e he => ?_)
          (hrest.fresh hidle)
        obtain ⟨f, hf, hstate, hle⟩ := hrest.outer e he
        exact ⟨f, hf.trans (by rw [hkeeps.outer]), hstate.trans hkeeps.state, hle⟩
      · exact .single layout hitems.last hitems.position_le hnested
      · exact .single layout hitems.last hitems.position_le hnested

/-- The calls on the elements of an array. -/
theorem Layout.arrayCalls_nested {slot : Option (List R)} {src : Source}
    (h : ItemsInOrder layout.ReadsInOrder src.stack.place slot) :
    NestedCalls src.stack (layout.arrayCalls maxLength slot src) := by
  unfold arrayCalls
  cases hcontents : sizedContents maxLength [] slot src with
  | none => exact .nil
  | some contents =>
    obtain ⟨items, src'⟩ := contents
    simp only [Option.toList_some, List.flatMap_singleton]
    obtain ⟨hstarted, rfl, rfl⟩ | ⟨hidle, rfl, length, hstack⟩ := sizedContents_cases hcontents
    · exact elementMessages_nested layout _ rfl hstarted h
    · have hrest := h.undeclared hidle
      have hitems : ItemsInOrder layout.ReadsInOrder src'.stack.place (some []) := by
        rw [hstack]
        exact .declared hrest length
      have hfield : src'.stack.top.fieldStarted = true := by
        rw [hstack]
        rfl
      refine (elementMessages_nested layout _ rfl hfield hitems).of_declared ?_ ?_ ?_
        fun hcontra => absurd (hrest.messageStarted.symm.trans hcontra) Bool.false_ne_true <;>
        rw [hstack] <;> rfl

end

/-- The calls on the messages of a field that is in order. -/
theorem Field.messageCalls_nested {A : Type} (field : Field A) (maxLength : Nat) {tag : Int8}
    {slot : A} {src : Source} (h : field.ReadsInOrder tag src.stack.place slot) :
    NestedCalls src.stack (field.messageCalls maxLength tag slot src) := by
  cases field with
  | optional layout => exact layout.messageCalls_nested h
  | required name layout => exact layout.messageCalls_nested h
  | array layout => exact layout.arrayCalls_nested h
  | batch layout => exact layout.arrayCalls_nested h
  | keys layout => exact layout.arrayCalls_nested h
  | values selector value invocation =>
    simp only [ReadsInOrder, messageCalls] at h ⊢
    split
    · next htag => exact invocation.arrayCalls_nested (by rwa [if_pos htag] at h)
    · next htag => exact value.arrayCalls_nested (by rwa [if_neg htag] at h)
  | _ => exact .nil

/-! ## Calls at any depth -/

namespace ReadCall

/-- Whether a message has been read in order up to where a call on it starts. -/
def InOrder (c : ReadCall) : Prop := c.layout.ReadsInOrder c.source.stack.place c.message

/-- The frame of a message around a call: the message is at one of its fields, and no further in
it than the field is long. -/
structure Surrounds (c : ReadCall) (f : Frame) : Prop where
  state : f.state < c.layout.fieldCount
  position : f.position ≤ f.length

/-- A call within a call that starts in order does so, too, below one frame for each message around
it. The induction goes down one message at a time. -/
theorem Within.starts {c e : ReadCall} {path : List ReadCall} (h : c.Within maxLength path e)
    (hc : c.InOrder) (houter : c.source.stack.outer = []) :
    e.InOrder ∧ List.Forall₂ Surrounds path e.source.stack.outer := by
  induction h with
  | self => exact ⟨hc, houter ▸ .nil⟩
  | @nested path outer inner field _ hfield hinner ih =>
    obtain ⟨horder, hsurrounds⟩ := ih
    have hstart := outer.layout.fieldCalls_start horder field hfield
    have hcalls := field.field.messageCalls_nested maxLength hstart.order
    obtain ⟨f, hf, hstate, hposition⟩ := hcalls.outer inner hinner
    refine ⟨hcalls.order inner hinner, ?_⟩
    rw [hf, hstart.outer]
    exact .cons ⟨hstate ▸ hstart.state, hposition⟩ hsurrounds

/-- What the frames are like during a call on a message that is made within others. -/
structure KeepsFrames (maxLength : Nat) (path : List ReadCall) (c : ReadCall) : Prop where
  /-- The call starts at the depth of its message. -/
  depth : c.source.stack.depth = path.length
  /-- There is a frame for each message around it. -/
  surrounded : List.Forall₂ Surrounds path c.source.stack.outer
  /-- Its own frame, and the ones below it, are those of the message as far as it has been read. -/
  order : c.InOrder
  state : c.source.stack.top.state ≤ c.layout.fieldCount
  position : c.source.stack.top.position ≤ c.source.stack.top.length
  /-- The call comes to each field in order, at its own depth. -/
  fields : ∀ field ∈ c.fields maxLength, field.Starts c.source.stack.outer c.layout.fieldCount
  /-- A slot that is being filled holds no more than the length in the frame. -/
  filled : ∀ field ∈ c.fields maxLength, field.source.stack.top.fieldStarted = true →
    ∃ n, field.field.filled field.tag field.slot = some n ∧ n ≤ field.source.stack.top.length
  /-- No message in a field starts with the progress of another one. -/
  messages : ∀ field ∈ c.fields maxLength,
    NestedCalls field.source.stack (field.messages maxLength)
  /-- The call ends at the depth of its message. -/
  ends : (c.reading maxLength).source.stack.depth = path.length
  /-- A message that is suspended is in order for the next call. -/
  suspended : (c.reading maxLength).progress = .incomplete →
    ∀ bs, (c.again maxLength bs).InOrder
  /-- The next call on it comes first to the field that was suspended. -/
  field_again : (c.reading maxLength).progress = .incomplete →
    ∀ field, (c.fields maxLength).getLast? = some field →
      ∀ bs, ((c.again maxLength bs).fields maxLength).head? = some (field.again maxLength bs)
  /-- The next call on a field comes first to the message that was suspended in it, if there is
  one. -/
  message_again : ∀ field ∈ c.fields maxLength, (field.reading maxLength).progress = .incomplete →
    (field.reading maxLength).source.stack.top.messageStarted = true →
      ∃ e, (field.messages maxLength).getLast? = some e ∧
        ∀ bs, ((field.again maxLength bs).messages maxLength).head? = some (e.again maxLength bs)
  /-- A message that is complete leaves nothing in its frame and those below. -/
  finished : (c.reading maxLength).progress = .advance →
    (c.reading maxLength).source.stack.top.state = c.layout.fieldCount ∧
      ((c.reading maxLength).source.stack.leave true).Fresh

/-- A call that is in order is at one of the fields of its message or behind them, and no further
in its field than it is long. -/
theorem InOrder.bounds {c : ReadCall} (h : c.InOrder) :
    c.source.stack.top.state ≤ c.layout.fieldCount ∧
      c.source.stack.top.position ≤ c.source.stack.top.length := by
  obtain ⟨layout, message, src⟩ := c
  cases layout with
  | message type fields settle =>
    have hposition := fields.position_le h.2
    exact ⟨h.1, hposition⟩

/-- During every call within a call that starts in order, the frames are in order. -/
theorem Within.keepsFrames {c e : ReadCall} {path : List ReadCall}
    (h : c.Within maxLength path e) (hc : c.InOrder) (houter : c.source.stack.outer = []) :
    e.KeepsFrames maxLength path := by
  obtain ⟨horder, hsurrounded⟩ := h.starts hc houter
  have hdepth : e.source.stack.depth = path.length := hsurrounded.length_eq.symm
  have hfields : ∀ field ∈ e.fields maxLength,
      field.Starts e.source.stack.outer e.layout.fieldCount := e.layout.fieldCalls_start horder
  have hkeeps := (e.layout.resumable maxLength).keeps e.message e.source
  have hread := e.layout.keepsOrder maxLength e.message e.source horder
  refine ⟨hdepth, hsurrounded, horder, horder.bounds.1, horder.bounds.2, hfields,
    fun field hfield hstarted => (hfields field hfield).order.filled_le hstarted,
    fun field hfield => field.field.messageCalls_nested maxLength (hfields field hfield).order, ?_,
    fun hincomplete _ => hread.suspended hincomplete,
    fun hincomplete field hlast => e.layout.fieldCalls_again hincomplete hlast,
    fun field hfield hincomplete hstarted => field.field.messageCalls_again
      (hfields field hfield).order hincomplete hstarted,
    fun hadvance => ⟨?_, (hread.finished hadvance).leave⟩⟩
  · exact (congrArg List.length hkeeps).trans hdepth
  · exact e.layout.read_state_of_advance horder hadvance

end ReadCall

end Enlistment.Wire
